import VisualOS.X86.Acpi

/-!
# Devices on the PCI buses

`pci_init` goes over the buses of the descriptors of a table, the devices of a bus and the functions
of a device.  Their headers are in memory, and the pointers to those found go into an array of
`PCI_MAX_LANES`.
-/

namespace VisualOS.Kernel

/-- `PCI_MAX_LANES`, `PCI_MAX_DEVICES` and `PCI_MAX_FUNCTIONS`. -/
def pciMaxLanes : Nat := 32

def pciMaxDevices : Nat := 32

def pciMaxFunctions : Nat := 8

/-- `sizeof(struct MCFGHeader)` and `sizeof(struct PCIDeviceConfigurationDescriptor)`. -/
def sizeofMcfgHeader : Nat := 44

def sizeofPciDescriptor : Nat := 16

/-- What `pci_init` does to the memory management on its way, for one page each. -/
inductive PciCall
  | reserve (ptr : BitVec 64)
  | identityMap (ptr : BitVec 64)
  deriving DecidableEq, Repr

/-- `s_pci_devices`, with `s_pci_devices_num` as its length, and the calls. -/
structure PciState where
  devices : List (BitVec 64)
  calls : List PciCall

def pciMapPage (ptr : BitVec 64) (s : PciState) : PciState :=
  { s with calls := s.calls ++ [.reserve ptr, .identityMap ptr] }

/-- `device_id` of a header. -/
def pciDeviceId (memory : BitVec 64 → BitVec 8) (header : BitVec 64) : BitVec 16 :=
  memory (header + 3) ++ memory (header + 2)

/-- The test that is written out for buses, devices and functions. -/
def PciInvalid (memory : BitVec 64 → BitVec 8) (header : BitVec 64) : Prop :=
  pciDeviceId memory header = 0 ∨ pciDeviceId memory header = 0xffff

instance (memory : BitVec 64 → BitVec 8) : DecidablePred (PciInvalid memory) :=
  fun _ => inferInstanceAs (Decidable (_ ∨ _))

/-- The body of the loop over functions; `none` is a store beyond the end of the array. -/
def pciFunction (memory : BitVec 64 → BitVec 8) (function : BitVec 64) (s : PciState) :
    Option PciState :=
  let s := pciMapPage function s
  if PciInvalid memory function then some s
  else if s.devices.length < pciMaxLanes then some { s with devices := s.devices ++ [function] }
  else none

/-- The body of the loop over devices. -/
def pciDevice (memory : BitVec 64 → BitVec 8) (device : BitVec 64) (s : PciState) :
    Option PciState :=
  let s := pciMapPage device s
  if PciInvalid memory device then some s
  else (List.range pciMaxFunctions).foldlM (fun s functionI =>
    pciFunction memory (device + BitVec.ofNat 64 functionI <<< 12) s) s

/-- The body of the loop over buses. -/
def pciBus (memory : BitVec 64 → BitVec 8) (bus : BitVec 64) (s : PciState) : Option PciState :=
  let s := pciMapPage bus s
  if PciInvalid memory bus then some s
  else (List.range pciMaxDevices).foldlM (fun s deviceI =>
    pciDevice memory (bus + BitVec.ofNat 64 deviceI <<< 15) s) s

/-- The loop over the buses of the descriptor at an offset.  `bus_i` stays below `bus_end`, so that
256 rounds are enough. -/
def pciBusLoop (table : Nat → BitVec 8) (memory : BitVec 64 → BitVec 8) (descriptor : Nat) :
    Nat → Nat → PciState → Option PciState
  | 0, _, s => some s
  | rounds + 1, busI, s =>
      if busI < (table (descriptor + 11)).toNat then
        let bus := readUint64 table descriptor + BitVec.ofNat 64 busI <<< 20
        (pciBus memory bus s).bind (pciBusLoop table memory descriptor rounds (busI + 1))
      else some s

/-- Still in the loop after the given rounds, out of the array, or at the end. -/
inductive PciOutcome
  | running
  | overrun
  | finished (s : PciState)

/-- The loop over the descriptors. -/
def pciLoop (table : Nat → BitVec 8) (memory : BitVec 64 → BitVec 8) :
    Nat → Nat → PciState → PciOutcome
  | 0, _, _ => .running
  | rounds + 1, t, s =>
      if t < (sdtLength table + 2 ^ 64 - sizeofMcfgHeader) % 2 ^ 64 then
        let descriptor := (sizeofMcfgHeader + t) % 2 ^ 64
        match pciBusLoop table memory descriptor 256 (table (descriptor + 10)).toNat s with
        | some s => pciLoop table memory rounds ((t + sizeofPciDescriptor) % 2 ^ 64) s
        | none => .overrun
      else .finished s

def pciInit (rounds : Nat) (table : Nat → BitVec 8) (memory : BitVec 64 → BitVec 8) : PciOutcome :=
  pciLoop table memory rounds 0 ⟨[], []⟩

/-! ## The functions of the buses -/

section Functions

variable (memory : BitVec 64 → BitVec 8)

end Functions

/-- The fields of `PCIDeviceConfigurationDescriptor` that are read. -/
structure PciDescriptor where
  base : BitVec 64
  busStart : Nat
  busEnd : Nat

namespace PciDescriptor

def bus (d : PciDescriptor) (busI : Nat) : BitVec 64 := d.base + BitVec.ofNat 64 busI <<< 20

variable (memory : BitVec 64 → BitVec 8)

end PciDescriptor

/-- The operation stores the given pointers, or there is no room for them. -/
def Stores (f : PciState → Option PciState) (stored : List (BitVec 64)) : Prop :=
  ∀ s : PciState, s.devices.length ≤ pciMaxLanes →
    if s.devices.length + stored.length ≤ pciMaxLanes then
      ∃ calls, f s = some ⟨s.devices ++ stored, calls⟩
    else f s = none

namespace Stores

variable {f g : PciState → Option PciState} {stored stored' : List (BitVec 64)}

private theorem nothing {calls : PciState → List PciCall} :
    Stores (fun s => some { s with calls := calls s }) [] := by
  intro s hs
  rw [List.length_nil, Nat.add_zero, if_pos hs, List.append_nil]
  exact ⟨_, rfl⟩

private theorem bind (hf : Stores f stored) (hg : Stores g stored') :
    Stores (fun s => (f s).bind g) (stored ++ stored') := by
  intro s hs
  have hfirst := hf s hs
  rw [List.length_append]
  by_cases hroom : s.devices.length + stored.length ≤ pciMaxLanes
  · rw [if_pos hroom] at hfirst
    obtain ⟨calls, hcalls⟩ := hfirst
    have hlast := hg ⟨s.devices ++ stored, calls⟩ (by rwa [List.length_append])
    dsimp only at hlast ⊢
    rw [hcalls, Option.bind_some]
    rwa [List.length_append, Nat.add_assoc, List.append_assoc] at hlast
  · rw [if_neg hroom] at hfirst
    rw [if_neg (by omega)]
    dsimp only
    rw [hfirst, Option.bind_none]

private theorem foldlM {ι : Type*} {step : PciState → ι → Option PciState}
    {lists : ι → List (BitVec 64)}
    {l : List ι} (h : ∀ i ∈ l, Stores (fun s => step s i) (lists i)) :
    Stores (fun s => l.foldlM step s) (l.flatMap lists) := by
  induction l with
  | nil => exact nothing
  | cons i l ih =>
      rw [List.forall_mem_cons] at h
      rw [List.flatMap_cons]
      exact h.1.bind (ih h.2)

end Stores

section Stored

variable {memory : BitVec 64 → BitVec 8} {table : Nat → BitVec 8}

theorem mcfgOffset_eq {k : Nat} (h : sizeofPciDescriptor * k < sdtLength table) :
    (sizeofMcfgHeader + sizeofPciDescriptor * k) % 2 ^ 64 =
        sizeofMcfgHeader + sizeofPciDescriptor * k ∧
      (sizeofPciDescriptor * k + sizeofPciDescriptor) % 2 ^ 64 = sizeofPciDescriptor * (k + 1) := by
  have hlt : sdtLength table < 2 ^ 32 := (readUint32 table 4).isLt
  rw [sizeofPciDescriptor] at *
  rw [sizeofMcfgHeader]
  omega

end Stored

/-! ## What is left out -/

section Omitted

variable {memory : BitVec 64 → BitVec 8} {table : Nat → BitVec 8} {d : PciDescriptor}

namespace PciDescriptor

end PciDescriptor

end Omitted

end VisualOS.Kernel
