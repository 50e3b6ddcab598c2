import VisualOS.Memory.AddressSpace
import VisualOS.Memory.BootMap

/-!
# The kernel's page table

`paging_init` builds the first address space in three passes: the kernel image at its virtual
addresses, the usable regions onto themselves, and everything below the total size of memory
onto itself.
-/

namespace VisualOS.Kernel

open Framework

/-- The symbols of the linker script that `paging_init` uses. -/
structure KernelImage extends LinkerSymbols where
  kernelWritableStart : Nat
  kernelWritableEnd : Nat

/-- `for(ptr = start; ptr < bound; ptr += MEMORY_PAGE_SIZE)`.  After `2 ^ 52` rounds the pointer
is back where it started. -/
def pointerLoop (bound : BitVec 64) (body : BitVec 64 → Paging → Paging) :
    Nat → BitVec 64 → Paging → Option Paging
  | 0, _, _ => none
  | rounds + 1, ptr, s =>
      if ptr < bound then pointerLoop bound body rounds (ptr + 4096#64) (body ptr s) else some s

def pagingSetWritable (pagetableL4 virtualAddress pages : BitVec 64) (s : Paging) : Paging :=
  pagingSetAttribute pagetableL4 virtualAddress pages .writable true s

def pagingIdentityMap (pagetableL4 address pages : BitVec 64) (s : Paging) : Option Paging :=
  pointerLoop (address + pages * 4096#64) (fun ptr => pagingMapPage pagetableL4 ptr ptr)
    (2 ^ 52 + 1) address s

def pagingIdentityMapSize (pagetableL4 address : BitVec 64) (size : Nat) (s : Paging) :
    Option Paging :=
  pagingIdentityMap pagetableL4 address (BitVec.ofNat 64 (nearestPage size)) s

/-- The body of the first loop of `paging_init`. -/
def mapKernelPage (image : KernelImage) (pagetableL4 ptr : BitVec 64) (s : Paging) : Paging :=
  let virtualAddress := ptr + BitVec.ofNat 64 image.virtualBase
  let s := pagingMapPage pagetableL4 virtualAddress ptr s
  if image.physicalAddress image.kernelWritableStart ≤ ptr.toNat ∧
      ptr.toNat < image.physicalAddress image.kernelWritableEnd then
    pagingSetWritable pagetableL4 virtualAddress 1 s
  else s

/-- The body of the second loop of `paging_init`. -/
def mapUsableEntry (pagetableL4 : BitVec 64) (s : Paging) (entry : MemoryMapEntry) :
    Option Paging :=
  if entry.type ≠ .usable then some s
  else do
    let base := BitVec.ofNat 64 entry.physicalBase
    let pages := BitVec.ofNat 64 entry.numPages
    let s ← pagingIdentityMap pagetableL4 base pages s
    return pagingSetWritable pagetableL4 base pages s

/-- The answer is the new `s_pagetable_l4`. -/
def pagingInit (image : KernelImage) (memorymap : List MemoryMapEntry) (s : Paging) :
    Option (BitVec 64 × Paging) := do
  let (pagetableL4, s) := s.request
  let s := s.zero pagetableL4
  let s ← pointerLoop (BitVec.ofNat 64 (image.physicalAddress image.kernelEnd))
    (mapKernelPage image pagetableL4) (2 ^ 52 + 1)
    (BitVec.ofNat 64 (image.physicalAddress image.kernelStart)) s
  let s ← memorymap.foldlM (mapUsableEntry pagetableL4) s
  let s ← pagingIdentityMapSize pagetableL4 0 (totalSize memorymap) s
  return (pagetableL4, s)

/-! ## The loops -/

/-- The passes over consecutive pages, by number. -/
def forPages (body : Nat → Paging → Paging) (n : Nat) (s : Paging) : Paging :=
  (List.range n).foldl (fun s i => body i s) s

theorem forPages_succ (body : Nat → Paging → Paging) (n : Nat) (s : Paging) :
    forPages body (n + 1) s = body n (forPages body n s) := by
  rw [forPages, List.range_succ, List.foldl_append]
  rfl

private theorem pointerLoop_range' (body : BitVec 64 → Paging → Paging) {bound start n : Nat}
    (hn : n = (bound - start + 4095) / 4096) (hle : start ≤ bound) (hfit : bound + 4096 ≤ 2 ^ 64)
    (rounds : Nat) {i : Nat} (hi : i ≤ n) (hrounds : n - i < rounds) (s : Paging) :
    pointerLoop (BitVec.ofNat 64 bound) body rounds (BitVec.ofNat 64 (start + i * 4096)) s =
      some ((List.range' i (n - i)).foldl
        (fun s j => body (BitVec.ofNat 64 (start + j * 4096)) s) s) := by
  induction rounds generalizing i s with
  | zero => omega
  | succ rounds ih =>
      have hcond : BitVec.ofNat 64 (start + i * 4096) < BitVec.ofNat 64 bound ↔ i < n := by
        rw [BitVec.lt_def, BitVec.toNat_ofNat, BitVec.toNat_ofNat]
        omega
      rw [pointerLoop]
      by_cases hlt : i < n
      · have hnext : BitVec.ofNat 64 (start + i * 4096) + 4096#64 =
            BitVec.ofNat 64 (start + (i + 1) * 4096) := by
          rw [show start + (i + 1) * 4096 = start + i * 4096 + 4096 by omega]
          exact (BitVec.ofNat_add _ _).symm
        have hrange : n - i = n - (i + 1) + 1 := by omega
        rw [if_pos (hcond.mpr hlt), hnext, ih hlt (by omega), hrange, List.range'_succ]
        rfl
      · have hrange : n - i = 0 := by omega
        rw [if_neg (fun h => hlt (hcond.mp h)), hrange]
        rfl

/-- The operation makes at most `n` requests. -/
def RequestsAtMost (n : Nat) (operation : Paging → Paging) : Prop :=
  ∀ s, s.requests ≤ (operation s).requests ∧ (operation s).requests ≤ s.requests + n

private theorem RequestsAtMost.forPages {body : Nat → Paging → Paging} {k : Nat}
    (hbody : ∀ i, RequestsAtMost k (body i)) (n : Nat) :
    RequestsAtMost (k * n) (Kernel.forPages body n) := by
  intro s
  induction n with
  | zero => exact ⟨le_rfl, le_rfl⟩
  | succ n ih =>
      have hlast := hbody n (Kernel.forPages body n s)
      rw [forPages_succ, Nat.mul_succ, ← Nat.add_assoc]
      exact ⟨ih.1.trans hlast.1, hlast.2.trans (Nat.add_le_add_right ih.2 _)⟩

theorem pointerLoop_eq (body : BitVec 64 → Paging → Paging) (bound start n : Nat)
    (hn : n = (bound - start + 4095) / 4096) (hle : start ≤ bound) (hfit : bound + 4096 ≤ 2 ^ 64)
    (s : Paging) :
    pointerLoop (BitVec.ofNat 64 bound) body (2 ^ 52 + 1) (BitVec.ofNat 64 start) s =
      some (forPages (fun i => body (BitVec.ofNat 64 (start + i * 4096))) n s) := by
  have hloop := pointerLoop_range' body hn hle hfit (2 ^ 52 + 1) (Nat.zero_le n) (by omega) s
  simp only [Nat.zero_mul, Nat.add_zero, Nat.sub_zero] at hloop
  rw [hloop, forPages, List.range_eq_range']

/-- The identity map of `n` pages from the page numbered `first` on. -/
def identityPages (root : BitVec 64) (first n : Nat) (s : Paging) : Paging :=
  forPages (fun i => pagingMapPage root (BitVec.ofNat 64 ((first + i) * 4096))
    (BitVec.ofNat 64 ((first + i) * 4096))) n s

private theorem pagingIdentityMap_eq (root : BitVec 64) (first n : Nat)
    (hfit : (first + n) * 4096 + 4096 ≤ 2 ^ 64) (s : Paging) :
    pagingIdentityMap root (BitVec.ofNat 64 (first * 4096)) (BitVec.ofNat 64 n) s =
      some (identityPages root first n s) := by
  have hbound : BitVec.ofNat 64 (first * 4096) + BitVec.ofNat 64 n * 4096#64 =
      BitVec.ofNat 64 ((first + n) * 4096) := by
    rw [Nat.add_mul, BitVec.ofNat_add, BitVec.ofNat_mul n]
  rw [pagingIdentityMap, hbound, pointerLoop_eq _ ((first + n) * 4096) (first * 4096) n
    (by omega) (Nat.mul_le_mul_right 4096 (Nat.le_add_right first n)) hfit, identityPages]
  simp only [Nat.add_mul]

/-! ## Numbers of pages -/

theorem virtualPage_ofNat {address : Nat} (h : address < 2 ^ 64) :
    virtualPage (BitVec.ofNat 64 address) = BitVec.ofNat 36 (address / 4096) := by
  apply BitVec.eq_of_toNat_eq
  rw [virtualPage, BitVec.extractLsb'_toNat, Nat.shiftRight_eq_div_pow, BitVec.toNat_ofNat,
    BitVec.toNat_ofNat, Nat.mod_eq_of_lt h]

theorem framePage_ofNat {address : Nat} (h : address < 2 ^ 52) :
    framePage (BitVec.ofNat 64 address) = BitVec.ofNat 52 (address / 4096) := by
  apply BitVec.eq_of_toNat_eq
  rw [framePage, BitVec.toNat_setWidth, BitVec.extractLsb'_toNat, Nat.shiftRight_eq_div_pow,
    BitVec.toNat_ofNat, BitVec.toNat_ofNat]
  omega

private theorem ofNat_page_inj {v w : Nat} (hv : v < 2 ^ 36) (hw : w < 2 ^ 36) :
    BitVec.ofNat 36 v = BitVec.ofNat 36 w ↔ v = w := by
  rw [← BitVec.toNat_inj, BitVec.toNat_ofNat, BitVec.toNat_ofNat, Nat.mod_eq_of_lt hv,
    Nat.mod_eq_of_lt hw]

private theorem ofNat_page_add (first i : Nat) :
    BitVec.ofNat 64 (first * 4096) + BitVec.ofNat 64 i * 4096#64 =
      BitVec.ofNat 64 ((first + i) * 4096) := by
  rw [Nat.add_mul, BitVec.ofNat_add, BitVec.ofNat_mul i]

namespace AddressSpace

private theorem target_map_page (space : AddressSpace) {v frame : Nat} (hv : v < 2 ^ 52)
    (hframe : frame < 2 ^ 40) (page : BitVec 36) :
    (space.map (BitVec.ofNat 64 (v * 4096)) (BitVec.ofNat 64 (frame * 4096))).target page =
      if page = BitVec.ofNat 36 v then some (BitVec.ofNat 52 frame) else space.target page := by
  rw [target_map, virtualPage_ofNat (by omega), framePage_ofNat (by omega),
    Nat.mul_div_cancel v (by decide), Nat.mul_div_cancel frame (by decide)]

private theorem granted_grant_pages (space : AddressSpace) {first n : Nat}
    (hfit : (first + n) * 4096 ≤ 2 ^ 64) (page : BitVec 36) :
    (space.grant (BitVec.ofNat 64 (first * 4096)) (BitVec.ofNat 64 n)).granted page ↔
      space.granted page ∨ ∃ i < n, page = BitVec.ofNat 36 (first + i) := by
  have hn : (BitVec.ofNat 64 n).toNat = n := by
    rw [BitVec.toNat_ofNat]
    omega
  unfold grant
  rw [hn]
  apply or_congr_right
  apply exists_congr
  intro i
  apply and_congr_right
  intro hi
  rw [ofNat_page_add, virtualPage_ofNat (by omega), Nat.mul_div_cancel _ (by decide)]

end AddressSpace

/-! ## Keeping track of the address space -/

/-- No more requests than these were made. -/
def Paging.Within (s : Paging) (last : Nat) : Prop := s.requests ≤ last

/-- The tables stand for an address space with the property, and the requests that are still to
come are answered with fresh frames. -/
def Building (root : BitVec 64) (last : Nat) (P : AddressSpace → Prop) (s : Paging) : Prop :=
  (∃ space, P space ∧ Implements root space s) ∧ s.FreshAnswers root last

namespace Building

variable {root virtualAddress physicalAddress pages : BitVec 64} {last : Nat}
  {P Q : AddressSpace → Prop} {s : Paging}

private theorem mono (h : Building root last P s) (hPQ : ∀ space, P space → Q space) :
    Building root last Q s := by
  obtain ⟨⟨space, hspace, himplements⟩, hfresh⟩ := h
  exact ⟨⟨space, hPQ space hspace, himplements⟩, hfresh⟩

private theorem mapPage (h : Building root last P s)
    (hlast : (pagingMapPage root virtualAddress physicalAddress s).Within last)
    (hPQ : ∀ space, P space → Q (space.map virtualAddress physicalAddress)) :
    Building root last Q (pagingMapPage root virtualAddress physicalAddress s) := by
  obtain ⟨⟨space, hspace, himplements⟩, hfresh⟩ := h
  have hnext := hfresh.mono hlast
  exact ⟨⟨_, hPQ space hspace, himplements.mapPage hnext⟩,
    (pagingMapPage_linked himplements.tree.1 hnext).1.freshAnswers hfresh⟩

private theorem setWritable (h : Building root last P s)
    (hmapped : ∀ space, P space → ∀ i < pages.toNat, ∃ page,
      space.target (virtualPage (virtualAddress + BitVec.ofNat 64 i * 4096#64)) = some page)
    (hPQ : ∀ space, P space → Q (space.grant virtualAddress pages)) :
    Building root last Q (pagingSetWritable root virtualAddress pages s) := by
  obtain ⟨⟨space, hspace, himplements⟩, hfresh⟩ := h
  have htranslate : ∀ i < pages.toNat, ∃ page,
      translate s.memory root (virtualAddress + BitVec.ofNat 64 i * 4096#64) = some page := by
    intro i hi
    rw [himplements.target]
    exact hmapped space hspace i hi
  exact ⟨⟨_, hPQ space hspace, himplements.setWritable htranslate⟩,
    (pagingSetAttribute_allowed _ _ himplements.tree.1 htranslate).freshAnswers hfresh⟩

private theorem forPages {P : Nat → AddressSpace → Prop} {body : Nat → Paging → Paging} {n : Nat}
    {k : Nat} (hmono : ∀ i, RequestsAtMost k (body i))
    (hstep : ∀ i s, i < n → Building root last (P i) s → (body i s).Within last →
      Building root last (P (i + 1)) (body i s))
    (h : Building root last (P 0) s) (hlast : (Kernel.forPages body n s).Within last) :
    Building root last (P n) (Kernel.forPages body n s) := by
  induction n with
  | zero => exact h
  | succ n ih =>
      rw [forPages_succ] at hlast ⊢
      have hbefore : (Kernel.forPages body n s).Within last := (hmono n _).1.trans hlast
      exact hstep n _ (Nat.lt_succ_self n)
        (ih (fun i s hi => hstep i s (Nat.lt_succ_of_lt hi)) hbefore) hlast

end Building

/-! ## The three passes -/

namespace KernelImage

/-- The number of the first frame of the image. -/
def firstFrame (image : KernelImage) : Nat := image.physicalAddress image.kernelStart / 4096

/-- The number of pages the first pass maps. -/
def kernelPages (image : KernelImage) : Nat :=
  (image.physicalAddress image.kernelEnd - image.physicalAddress image.kernelStart + 4095) / 4096

/-- The number of the virtual page at which the image starts. -/
def firstPage (image : KernelImage) : Nat := 2 ^ 36 - 2 ^ 19 + image.firstFrame

/-- The address at which a page of the image is mapped. -/
def pageAddress (image : KernelImage) (k : Nat) : BitVec 64 :=
  BitVec.ofNat 64 ((2 ^ 52 - 2 ^ 19 + image.firstFrame + k) * 4096)

/-- The physical address of a page of the image. -/
def frameAddress (image : KernelImage) (k : Nat) : BitVec 64 :=
  BitVec.ofNat 64 ((image.firstFrame + k) * 4096)

def WritableFrame (image : KernelImage) (frame : Nat) : Prop :=
  image.physicalAddress image.kernelWritableStart ≤ frame * 4096 ∧
    frame * 4096 < image.physicalAddress image.kernelWritableEnd

instance (image : KernelImage) (frame : Nat) : Decidable (image.WritableFrame frame) :=
  inferInstanceAs (Decidable (_ ∧ _))

end KernelImage

/-- What the passes have done so far: `rounds` pages of the image and the pages `low` are mapped,
and of the latter those in `granted` may be written. -/
structure InitView (image : KernelImage) (rounds : Nat) (low granted : Nat → Prop)
    (space : AddressSpace) : Prop where
  kernel : ∀ k < rounds, space.target (BitVec.ofNat 36 (image.firstPage + k)) =
    some (BitVec.ofNat 52 (image.firstFrame + k))
  low : ∀ x < 2 ^ 35, low x → space.target (BitVec.ofNat 36 x) = some (BitVec.ofNat 52 x)
  granted : ∀ v < 2 ^ 36, space.granted (BitVec.ofNat 36 v) ↔
    v < 2 ^ 35 ∧ granted v ∨
      ∃ k < rounds, image.WritableFrame (image.firstFrame + k) ∧ v = image.firstPage + k

namespace InitView

variable {image : KernelImage} {rounds : Nat} {low granted : Nat → Prop} {space : AddressSpace}

private theorem mapIdentity (h : InitView image rounds low granted space)
    (himage : image.firstFrame + rounds ≤ 2 ^ 19) {x : Nat} (hx : x < 2 ^ 35) :
    InitView image rounds (fun y => low y ∨ y = x) granted
      (space.map (BitVec.ofNat 64 (x * 4096)) (BitVec.ofNat 64 (x * 4096))) := by
  refine ⟨?_, ?_, h.granted⟩
  · intro k hk
    have hother : BitVec.ofNat 36 (image.firstPage + k) ≠ BitVec.ofNat 36 x := by
      rw [Ne, ofNat_page_inj (by unfold KernelImage.firstPage; omega) (by omega)]
      unfold KernelImage.firstPage
      omega
    rw [space.target_map_page (by omega) (by omega), if_neg hother]
    exact h.kernel k hk
  · intro y hy hlow
    rw [space.target_map_page (by omega) (by omega)]
    by_cases hyx : y = x
    · rw [hyx, if_pos rfl]
    · rw [if_neg (fun heq => hyx ((ofNat_page_inj (by omega) (by omega)).mp heq))]
      exact h.low y hy (hlow.resolve_right hyx)

private theorem grantLow (h : InitView image rounds low granted space)
    (first n : Nat) (hfit : first + n ≤ 2 ^ 35) :
    InitView image rounds low (fun y => granted y ∨ first ≤ y ∧ y < first + n)
      (space.grant (BitVec.ofNat 64 (first * 4096)) (BitVec.ofNat 64 n)) := by
  refine ⟨h.kernel, h.low, ?_⟩
  intro v hv
  have hrange : (∃ i < n, BitVec.ofNat 36 v = BitVec.ofNat 36 (first + i)) ↔
      first ≤ v ∧ v < first + n := by
    constructor
    · rintro ⟨i, hi, heq⟩
      rw [ofNat_page_inj hv (by omega)] at heq
      omega
    · rintro ⟨hle, hlt⟩
      exact ⟨v - first, by omega, by rw [Nat.add_sub_cancel' hle]⟩
  rw [space.granted_grant_pages (by omega), h.granted v hv, hrange]
  constructor
  · rintro ((⟨hlow, hg⟩ | hkernel) | hnew)
    · exact .inl ⟨hlow, .inl hg⟩
    · exact .inr hkernel
    · exact .inl ⟨by omega, .inr hnew⟩
  · rintro (⟨hlow, hg | hnew⟩ | hkernel)
    · exact .inl (.inl ⟨hlow, hg⟩)
    · exact .inr hnew
    · exact .inl (.inr hkernel)

private theorem virtualPage_pageAddress {k : Nat} (himage : image.firstFrame + k < 2 ^ 19) :
    virtualPage (image.pageAddress k) = BitVec.ofNat 36 (image.firstPage + k) := by
  rw [KernelImage.pageAddress, virtualPage_ofNat (by omega), Nat.mul_div_cancel _ (by decide)]
  apply BitVec.eq_of_toNat_eq
  rw [BitVec.toNat_ofNat, BitVec.toNat_ofNat, KernelImage.firstPage]
  omega

private theorem target_map_kernel (space : AddressSpace) {k v : Nat}
    (himage : image.firstFrame + k < 2 ^ 19) (hv : v < 2 ^ 36) :
    (space.map (image.pageAddress k) (image.frameAddress k)).target (BitVec.ofNat 36 v) =
      if v = image.firstPage + k then some (BitVec.ofNat 52 (image.firstFrame + k))
      else space.target (BitVec.ofNat 36 v) := by
  have hinj : BitVec.ofNat 36 v = BitVec.ofNat 36 (image.firstPage + k) ↔
      v = image.firstPage + k :=
    ofNat_page_inj hv (by unfold KernelImage.firstPage; omega)
  rw [AddressSpace.target_map, virtualPage_pageAddress himage, KernelImage.frameAddress,
    framePage_ofNat (by omega), Nat.mul_div_cancel _ (by decide)]
  exact if_congr hinj rfl rfl

private theorem kernel_map (h : InitView image rounds low granted space)
    (himage : image.firstFrame + rounds < 2 ^ 19) :
    (∀ k < rounds + 1, (space.map (image.pageAddress rounds) (image.frameAddress rounds)).target
        (BitVec.ofNat 36 (image.firstPage + k)) =
        some (BitVec.ofNat 52 (image.firstFrame + k))) ∧
      ∀ x < 2 ^ 35, low x →
        (space.map (image.pageAddress rounds) (image.frameAddress rounds)).target
          (BitVec.ofNat 36 x) = some (BitVec.ofNat 52 x) := by
  have hfirst : image.firstPage = 2 ^ 36 - 2 ^ 19 + image.firstFrame := rfl
  refine ⟨?_, ?_⟩
  · intro k hk
    rw [target_map_kernel space himage (by omega)]
    by_cases hkr : k = rounds
    · rw [hkr, if_pos rfl]
    · rw [if_neg (by omega), h.kernel k (by omega)]
  · intro x hx hlow
    rw [target_map_kernel space himage (by omega), if_neg (by omega), h.low x hx hlow]

private theorem mapKernel (h : InitView image rounds low granted space)
    (himage : image.firstFrame + rounds < 2 ^ 19)
    (hreadonly : ¬ image.WritableFrame (image.firstFrame + rounds)) :
    InitView image (rounds + 1) low granted
      (space.map (image.pageAddress rounds)
        (image.frameAddress rounds)) := by
  obtain ⟨hkernel, hlow⟩ := h.kernel_map himage
  refine ⟨hkernel, hlow, ?_⟩
  intro v hv
  rw [show (space.map _ _).granted = space.granted from rfl, h.granted v hv]
  apply or_congr_right
  constructor
  · rintro ⟨k, hk, hrest⟩
    exact ⟨k, by omega, hrest⟩
  · rintro ⟨k, hk, hw, hv⟩
    have hkr : k ≠ rounds := fun heq => hreadonly (heq ▸ hw)
    exact ⟨k, by omega, hw, hv⟩

private theorem mapKernel_grant (h : InitView image rounds low granted space)
    (himage : image.firstFrame + rounds < 2 ^ 19)
    (hwritable : image.WritableFrame (image.firstFrame + rounds)) :
    InitView image (rounds + 1) low granted
      ((space.map (image.pageAddress rounds)
        (image.frameAddress rounds)).grant
        (image.pageAddress rounds) 1) := by
  obtain ⟨hkernel, hlow⟩ := h.kernel_map himage
  refine ⟨hkernel, hlow, ?_⟩
  intro v hv
  have hnew : (∃ i < (1 : BitVec 64).toNat, BitVec.ofNat 36 v =
      virtualPage (image.pageAddress rounds + BitVec.ofNat 64 i * 4096#64)) ↔
      v = image.firstPage + rounds := by
    have hone : (1 : BitVec 64).toNat = 1 := rfl
    rw [hone]
    simp only [Nat.lt_one_iff, exists_eq_left, BitVec.zero_mul, BitVec.add_zero]
    rw [virtualPage_pageAddress himage, ofNat_page_inj hv (by unfold KernelImage.firstPage; omega)]
  change (space.granted _ ∨ ∃ i < (1 : BitVec 64).toNat, _) ↔ _
  rw [hnew, h.granted v hv, or_assoc]
  apply or_congr_right
  constructor
  · rintro (⟨k, hk, hrest⟩ | hv)
    · exact ⟨k, by omega, hrest⟩
    · exact ⟨rounds, by omega, hwritable, hv⟩
  · rintro ⟨k, hk, hw, hv⟩
    by_cases hkr : k = rounds
    · exact .inr (hkr ▸ hv)
    · exact .inl ⟨k, by omega, hw, hv⟩

private theorem mono {low' granted' : Nat → Prop} (h : InitView image rounds low granted space)
    (hlow : ∀ x, low' x → low x) (hgranted : ∀ x, granted x ↔ granted' x) :
    InitView image rounds low' granted' space := by
  refine ⟨h.kernel, fun x hx hx' => h.low x hx (hlow x hx'), ?_⟩
  intro v hv
  rw [h.granted v hv, hgranted]

private theorem empty (image : KernelImage) :
    InitView image 0 (fun _ => False) (fun _ => False) .empty := by
  refine ⟨fun k hk => absurd hk (by omega), fun _ _ hfalse => hfalse.elim, ?_⟩
  intro v _
  constructor
  · intro hfalse
    exact hfalse.elim
  · rintro (⟨-, hfalse⟩ | ⟨k, hk, -⟩)
    · exact hfalse.elim
    · omega

end InitView

private theorem KernelImage.frames_le {image : KernelImage} (h : image.WellFormed) :
    image.physicalAddress image.kernelStart = image.firstFrame * 4096 ∧
      image.physicalAddress image.kernelStart ≤ image.physicalAddress image.kernelEnd ∧
      image.physicalAddress image.kernelEnd < 2 ^ 31 ∧
      image.firstFrame + image.kernelPages ≤ 2 ^ 19 := by
  obtain ⟨hbase, hbaseStart, haligned, hle, hlt⟩ := h
  rw [kernelPages, firstFrame, LinkerSymbols.physicalAddress, LinkerSymbols.physicalAddress]
  omega

section Passes

variable {image : KernelImage} {root : BitVec 64} {last rounds : Nat} {low granted : Nat → Prop}
  {s : Paging}

private theorem requestsAtMost_mapPage (root virtualAddress physicalAddress : BitVec 64) :
    RequestsAtMost 3 (pagingMapPage root virtualAddress physicalAddress) :=
  pagingMapPage_requests root virtualAddress physicalAddress

private theorem requestsAtMost_mapKernelPage (image : KernelImage) (root ptr : BitVec 64) :
    RequestsAtMost 3 (mapKernelPage image root ptr) := by
  intro s
  have hmap := pagingMapPage_requests root (ptr + BitVec.ofNat 64 image.virtualBase) ptr s
  simp only [mapKernelPage, apply_ite Paging.requests, pagingSetWritable,
    pagingSetAttribute_requests, ite_self]
  exact hmap

private theorem mapKernelPage_eq (himage : image.WellFormed) {k : Nat} (hk : k < image.kernelPages)
    (s : Paging) :
    mapKernelPage image root
        (BitVec.ofNat 64 (image.physicalAddress image.kernelStart + k * 4096)) s =
      if image.WritableFrame (image.firstFrame + k) then
        pagingSetWritable root (image.pageAddress k) 1
          (pagingMapPage root (image.pageAddress k) (image.frameAddress k) s)
      else pagingMapPage root (image.pageAddress k) (image.frameAddress k) s := by
  obtain ⟨hstart, -, -, hframes⟩ := image.frames_le himage
  have hptr : image.physicalAddress image.kernelStart + k * 4096 =
      (image.firstFrame + k) * 4096 := by
    rw [hstart]
    omega
  have hsum : (image.firstFrame + k) * 4096 + image.virtualBase =
      (2 ^ 52 - 2 ^ 19 + image.firstFrame + k) * 4096 := by
    rw [himage.virtualBase]
    omega
  have hvirtual : image.frameAddress k + BitVec.ofNat 64 image.virtualBase =
      image.pageAddress k := by
    rw [KernelImage.frameAddress, KernelImage.pageAddress, ← BitVec.ofNat_add, hsum]
  have htoNat : (image.frameAddress k).toNat = (image.firstFrame + k) * 4096 := by
    rw [KernelImage.frameAddress, BitVec.toNat_ofNat]
    omega
  rw [hptr]
  change mapKernelPage image root (image.frameAddress k) s = _
  unfold mapKernelPage
  simp only [hvirtual, htoNat]
  exact if_congr Iff.rfl rfl rfl

private theorem Building.kernelPage (himage : image.WellFormed)
    (hrounds : rounds < image.kernelPages)
    (h : Building root last (InitView image rounds low granted) s)
    (hlast : (mapKernelPage image root
      (BitVec.ofNat 64 (image.physicalAddress image.kernelStart + rounds * 4096)) s).Within last) :
    Building root last (InitView image (rounds + 1) low granted) (mapKernelPage image root
      (BitVec.ofNat 64 (image.physicalAddress image.kernelStart + rounds * 4096)) s) := by
  obtain ⟨-, -, -, hframes⟩ := image.frames_le himage
  rw [mapKernelPage_eq himage hrounds] at hlast ⊢
  by_cases hw : image.WritableFrame (image.firstFrame + rounds)
  · rw [if_pos hw] at hlast ⊢
    rw [Paging.Within, pagingSetWritable, pagingSetAttribute_requests] at hlast
    have hmapped := h.mapPage (Q := fun space => ∃ before,
      InitView image rounds low granted before ∧
        space = before.map (image.pageAddress rounds) (image.frameAddress rounds)) hlast
      (fun before hbefore => ⟨before, hbefore, rfl⟩)
    apply hmapped.setWritable
    · rintro _ ⟨before, -, rfl⟩ i hi
      have hi : i = 0 := Nat.lt_one_iff.mp hi
      rw [hi, AddressSpace.target_map, BitVec.zero_mul, BitVec.add_zero, if_pos rfl]
      exact ⟨_, rfl⟩
    · rintro _ ⟨before, hbefore, rfl⟩
      exact hbefore.mapKernel_grant (by omega) hw
  · rw [if_neg hw] at hlast ⊢
    exact h.mapPage hlast fun before hbefore => hbefore.mapKernel (by omega) hw

private theorem Building.identityPages (hrounds : image.firstFrame + rounds ≤ 2 ^ 19)
    {first n : Nat}
    (hfit : first + n ≤ 2 ^ 35) (h : Building root last (InitView image rounds low granted) s)
    (hlast : (Kernel.identityPages root first n s).Within last) :
    Building root last (InitView image rounds (fun y => low y ∨ first ≤ y ∧ y < first + n) granted)
      (Kernel.identityPages root first n s) := by
  refine Building.forPages
    (P := fun i => InitView image rounds (fun y => low y ∨ first ≤ y ∧ y < first + i) granted)
    (fun _ => requestsAtMost_mapPage root _ _) ?_ ?_ hlast
  · intro i s hi hbuilding hlast'
    apply hbuilding.mapPage hlast'
    intro space hspace
    apply (hspace.mapIdentity hrounds (by omega)).mono _ (fun _ => Iff.rfl)
    intro y hy
    rcases hy with hy | hy
    · exact .inl (.inl hy)
    · by_cases hyi : y = first + i
      · exact .inr hyi
      · exact .inl (.inr (by omega))
  · apply h.mono
    intro space hspace
    apply hspace.mono _ (fun _ => Iff.rfl)
    intro y hy
    rcases hy with hy | hy
    · exact hy
    · omega

/-- The same pass, however far it goes: a page it reaches is mapped onto itself, whatever was
there before. -/
theorem Building.identityPages_page {P : AddressSpace → Prop} {v n : Nat} (hv : v < n)
    (hn : n ≤ 2 ^ 36) (h : Building root last P s)
    (hlast : (Kernel.identityPages root 0 n s).Within last) :
    Building root last (fun space => space.target (BitVec.ofNat 36 v) = some (BitVec.ofNat 52 v))
      (Kernel.identityPages root 0 n s) := by
  have hpass : Building root last (fun space => v < n →
      space.target (BitVec.ofNat 36 v) = some (BitVec.ofNat 52 v))
      (Kernel.identityPages root 0 n s) := by
    refine Building.forPages (P := fun i space => v < i →
      space.target (BitVec.ofNat 36 v) = some (BitVec.ofNat 52 v))
      (fun _ => requestsAtMost_mapPage root _ _) ?_ ?_ hlast
    · intro i s hi hbuilding hlast'
      apply hbuilding.mapPage hlast'
      intro space hspace hvi
      rw [space.target_map_page (by omega) (by omega), Nat.zero_add]
      by_cases hvi' : v = i
      · rw [hvi', if_pos rfl]
      · rw [if_neg (fun heq => hvi' ((ofNat_page_inj (by omega) (by omega)).mp heq))]
        exact hspace (by omega)
    · exact h.mono fun space _ hfalse => absurd hfalse (Nat.not_lt_zero v)
  exact hpass.mono fun space hspace => hspace hv

private theorem requestsAtMost_identityPages (root : BitVec 64) (first n : Nat) :
    RequestsAtMost (3 * n) (identityPages root first n) :=
  RequestsAtMost.forPages (fun _ => requestsAtMost_mapPage root _ _) n

/-- The second pass, for one region. -/
def usableEntry (root : BitVec 64) (s : Paging) (entry : MemoryMapEntry) : Paging :=
  if entry.type = .usable then
    pagingSetWritable root (BitVec.ofNat 64 entry.physicalBase) (BitVec.ofNat 64 entry.numPages)
      (identityPages root (entry.physicalBase / 4096) entry.numPages s)
  else s

private theorem mapUsableEntry_eq {entry : MemoryMapEntry}
    (haligned : entry.physicalBase % 4096 = 0)
    (hbelow : entry.physicalBase + entry.numPages * 4096 ≤ 2 ^ 47) (s : Paging) :
    mapUsableEntry root s entry = some (usableEntry root s entry) := by
  have hbase : entry.physicalBase / 4096 * 4096 = entry.physicalBase := by omega
  unfold mapUsableEntry usableEntry
  by_cases htype : entry.type = .usable
  · have hmap := pagingIdentityMap_eq root (entry.physicalBase / 4096) entry.numPages (by omega) s
    rw [hbase] at hmap
    rw [if_neg (not_not.mpr htype), if_pos htype]
    dsimp only
    rw [hmap]
    rfl
  · rw [if_pos htype, if_neg htype]

private theorem usableEntry_requests (root : BitVec 64) (s : Paging) (entry : MemoryMapEntry) :
    s.requests ≤ (usableEntry root s entry).requests ∧
      (usableEntry root s entry).requests ≤ s.requests + 3 * entry.numPages := by
  unfold usableEntry
  by_cases htype : entry.type = .usable
  · rw [if_pos htype, pagingSetWritable, pagingSetAttribute_requests]
    exact requestsAtMost_identityPages root _ _ s
  · rw [if_neg htype]
    omega

private theorem usableEntries_requests (root : BitVec 64) (memorymap : List MemoryMapEntry)
    (s : Paging) : s.requests ≤ (memorymap.foldl (usableEntry root) s).requests ∧
      (memorymap.foldl (usableEntry root) s).requests ≤ s.requests + 3 * pageCount memorymap := by
  induction memorymap generalizing s with
  | nil => exact ⟨le_rfl, le_rfl⟩
  | cons entry memorymap ih =>
      have hentry := usableEntry_requests root s entry
      have hrest := ih (usableEntry root s entry)
      have hcount : pageCount (entry :: memorymap) = entry.numPages + pageCount memorymap := by
        simp [pageCount]
      rw [List.foldl_cons, hcount]
      omega

private theorem Building.usableEntry (hrounds : image.firstFrame + rounds ≤ 2 ^ 19)
    {entry : MemoryMapEntry} (haligned : entry.physicalBase % 4096 = 0)
    (hbelow : entry.physicalBase + entry.numPages * 4096 ≤ 2 ^ 47)
    (h : Building root last (InitView image rounds low granted) s)
    (hlast : (Kernel.usableEntry root s entry).Within last) :
    Building root last (InitView image rounds
      (fun y => low y ∨ entry.type = .usable ∧ entry.HasFrame y)
      (fun y => granted y ∨ entry.type = .usable ∧ entry.HasFrame y))
      (Kernel.usableEntry root s entry) := by
  unfold Kernel.usableEntry at hlast ⊢
  by_cases htype : entry.type = .usable
  · have hbase : entry.physicalBase = entry.physicalBase / 4096 * 4096 := by omega
    rw [if_pos htype] at hlast ⊢
    rw [Paging.Within, pagingSetWritable, pagingSetAttribute_requests] at hlast
    have hmapped := h.identityPages hrounds (by omega) hlast
    simp only [htype, true_and, entry.hasFrame_iff haligned]
    apply hmapped.setWritable
    · intro space hspace i hi
      have hi : i < entry.numPages := by
        rw [BitVec.toNat_ofNat] at hi
        omega
      rw [hbase, ofNat_page_add, virtualPage_ofNat (by omega), Nat.mul_div_cancel _ (by decide)]
      exact ⟨_, hspace.low _ (by omega) (.inr (by omega))⟩
    · intro space hspace
      have hgrant := hspace.grantLow (entry.physicalBase / 4096) entry.numPages (by omega)
      rwa [← hbase] at hgrant
  · rw [if_neg htype]
    apply h.mono
    intro space hspace
    apply hspace.mono
    · simp [htype]
    · simp [htype]

private theorem Building.usableEntries (hrounds : image.firstFrame + rounds ≤ 2 ^ 19)
    {memorymap : List MemoryMapEntry} (haligned : ∀ e ∈ memorymap, e.physicalBase % 4096 = 0)
    (hbelow : ∀ e ∈ memorymap, e.physicalBase + e.numPages * 4096 ≤ 2 ^ 47)
    (h : Building root last (InitView image rounds low granted) s)
    (hlast : (memorymap.foldl (Kernel.usableEntry root) s).Within last) :
    Building root last (InitView image rounds
      (fun y => low y ∨ ∃ e ∈ memorymap, e.type = .usable ∧ e.HasFrame y)
      (fun y => granted y ∨ ∃ e ∈ memorymap, e.type = .usable ∧ e.HasFrame y))
      (memorymap.foldl (Kernel.usableEntry root) s) := by
  induction memorymap generalizing s low granted with
  | nil => simpa using h
  | cons entry memorymap ih =>
      rw [List.foldl_cons] at hlast ⊢
      rw [List.forall_mem_cons] at haligned hbelow
      have hfirst := h.usableEntry hrounds haligned.1 hbelow.1
        ((usableEntries_requests root memorymap _).1.trans hlast)
      have hrest := ih haligned.2 hbelow.2 hfirst hlast
      simpa only [List.exists_mem_cons_iff, or_assoc] using hrest

private theorem mapUsableEntries_eq {memorymap : List MemoryMapEntry}
    (haligned : ∀ e ∈ memorymap, e.physicalBase % 4096 = 0)
    (hbelow : ∀ e ∈ memorymap, e.physicalBase + e.numPages * 4096 ≤ 2 ^ 47) (s : Paging) :
    memorymap.foldlM (mapUsableEntry root) s = some (memorymap.foldl (usableEntry root) s) := by
  induction memorymap generalizing s with
  | nil => rfl
  | cons entry memorymap ih =>
      rw [List.forall_mem_cons] at haligned hbelow
      rw [List.foldlM_cons, mapUsableEntry_eq haligned.1 hbelow.1, Option.bind_eq_bind,
        Option.bind_some, ih haligned.2 hbelow.2, List.foldl_cons]

/-- The first pass, over the whole image. -/
def kernelPass (image : KernelImage) (root : BitVec 64) (s : Paging) : Paging :=
  forPages (fun i => mapKernelPage image root
    (BitVec.ofNat 64 (image.physicalAddress image.kernelStart + i * 4096))) image.kernelPages s

private theorem requestsAtMost_kernelPass (image : KernelImage) (root : BitVec 64) :
    RequestsAtMost (3 * image.kernelPages) (kernelPass image root) :=
  RequestsAtMost.forPages (fun _ => requestsAtMost_mapKernelPage image root _) image.kernelPages

private theorem Building.kernelPass (himage : image.WellFormed)
    (h : Building root last (InitView image 0 low granted) s)
    (hlast : (Kernel.kernelPass image root s).Within last) :
    Building root last (InitView image image.kernelPages low granted)
      (Kernel.kernelPass image root s) := by
  apply Building.forPages (P := fun i => InitView image i low granted)
    (fun _ => requestsAtMost_mapKernelPage image root _) _ h hlast
  intro i s hi hbuilding hlast'
  exact hbuilding.kernelPage himage hi hlast'

/-- The state before the first pass: the root is requested and cleared. -/
def clearedRoot (s : Paging) : Paging := s.request.2.zero (s.answers s.requests)

/-- The three passes, one after the other. -/
def initPasses (image : KernelImage) (memorymap : List MemoryMapEntry) (s : Paging) : Paging :=
  identityPages (s.answers s.requests) 0 (totalSize memorymap / 4096)
    (memorymap.foldl (usableEntry (s.answers s.requests))
      (kernelPass image (s.answers s.requests) (clearedRoot s)))

private theorem initPasses_requests (image : KernelImage) (memorymap : List MemoryMapEntry)
    (s : Paging) :
    (initPasses image memorymap s).requests ≤ s.requests + 1 + 3 * image.kernelPages +
      3 * pageCount memorymap + 3 * (totalSize memorymap / 4096) := by
  have hroot : (clearedRoot s).requests = s.requests + 1 := rfl
  have hkernel := (requestsAtMost_kernelPass image (s.answers s.requests) (clearedRoot s)).2
  have hentries := (usableEntries_requests (s.answers s.requests) memorymap
    (kernelPass image (s.answers s.requests) (clearedRoot s))).2
  have hlast := (requestsAtMost_identityPages (s.answers s.requests) 0
    (totalSize memorymap / 4096) (memorymap.foldl (usableEntry (s.answers s.requests))
      (kernelPass image (s.answers s.requests) (clearedRoot s)))).2
  rw [hroot] at hkernel
  refine hlast.trans (Nat.add_le_add_right (hentries.trans ?_) _)
  exact Nat.add_le_add_right hkernel _

private theorem totalSize_mod (memorymap : List MemoryMapEntry) :
    totalSize memorymap % 4096 = 0 := by
  rw [totalSize_eq]
  omega

private theorem pagingInit_eq (himage : image.WellFormed) {memorymap : List MemoryMapEntry}
    (haligned : ∀ e ∈ memorymap, e.physicalBase % 4096 = 0)
    (hbelow : ∀ e ∈ memorymap, e.physicalBase + e.numPages * 4096 ≤ 2 ^ 47)
    (htotal : totalSize memorymap ≤ 2 ^ 63) (s : Paging) :
    pagingInit image memorymap s =
      some (s.answers s.requests, initPasses image memorymap s) := by
  obtain ⟨-, hle, hlt, -⟩ := image.frames_le himage
  have hkernel : pointerLoop (BitVec.ofNat 64 (image.physicalAddress image.kernelEnd))
      (mapKernelPage image (s.answers s.requests)) (2 ^ 52 + 1)
      (BitVec.ofNat 64 (image.physicalAddress image.kernelStart)) (clearedRoot s) =
      some (kernelPass image (s.answers s.requests) (clearedRoot s)) :=
    pointerLoop_eq _ _ _ image.kernelPages rfl hle (by omega) _
  have hmod := totalSize_mod memorymap
  have hpages : nearestPage (totalSize memorymap) = totalSize memorymap / 4096 := by
    rw [nearestPage_eq (by omega)]
    omega
  have hlast : ∀ s', pagingIdentityMapSize (s.answers s.requests) 0 (totalSize memorymap) s' =
      some (identityPages (s.answers s.requests) 0 (totalSize memorymap / 4096) s') := by
    intro s'
    rw [pagingIdentityMapSize, hpages]
    exact pagingIdentityMap_eq _ 0 _ (by omega) s'
  have hbinds : pagingInit image memorymap s =
      (pointerLoop (BitVec.ofNat 64 (image.physicalAddress image.kernelEnd))
        (mapKernelPage image (s.answers s.requests)) (2 ^ 52 + 1)
        (BitVec.ofNat 64 (image.physicalAddress image.kernelStart)) (clearedRoot s)).bind fun s₁ =>
      (memorymap.foldlM (mapUsableEntry (s.answers s.requests)) s₁).bind fun s₂ =>
      (pagingIdentityMapSize (s.answers s.requests) 0 (totalSize memorymap) s₂).bind fun s₃ =>
      some (s.answers s.requests, s₃) := rfl
  rw [hbinds, hkernel, Option.bind_some, mapUsableEntries_eq haligned hbelow, Option.bind_some,
    hlast, Option.bind_some, initPasses]

private theorem building_clearedRoot (image : KernelImage) {t : Paging} (hsupplied : s.Supplied t) :
    Building (s.answers s.requests) t.requests
      (InitView image 0 (fun _ => False) (fun _ => False)) (clearedRoot s) := by
  have hzero : ∀ index, (clearedRoot s).memory (pageNumber (s.answers s.requests)) index = 0 :=
    fun _ => clearTable_same
  refine ⟨⟨.empty, InitView.empty image, Implements.of_zeroed_root hzero⟩, ?_⟩
  have hempty : ∀ i, entryTarget ((clearedRoot s).memory (pageNumber (s.answers s.requests)) i) =
      none := by
    intro i
    rw [hzero i, entryTarget_zero]
  exact hsupplied.freshAnswers_root rfl rfl hempty

private theorem building_usableEntries (himage : image.WellFormed) {memorymap : List MemoryMapEntry}
    (haligned : ∀ e ∈ memorymap, e.physicalBase % 4096 = 0)
    (hbelow : ∀ e ∈ memorymap, e.physicalBase + e.numPages * 4096 ≤ 2 ^ 47)
    (hsupplied : s.Supplied (initPasses image memorymap s)) :
    Building (s.answers s.requests) (initPasses image memorymap s).requests
      (InitView image image.kernelPages
        (fun y => ∃ e ∈ memorymap, e.type = .usable ∧ e.HasFrame y)
        (fun y => ∃ e ∈ memorymap, e.type = .usable ∧ e.HasFrame y))
      (memorymap.foldl (usableEntry (s.answers s.requests))
        (kernelPass image (s.answers s.requests) (clearedRoot s))) := by
  have hlast : (memorymap.foldl (usableEntry (s.answers s.requests))
      (kernelPass image (s.answers s.requests) (clearedRoot s))).requests ≤
      (initPasses image memorymap s).requests :=
    (requestsAtMost_identityPages _ _ _ _).1
  have hkernel := (building_clearedRoot image hsupplied).kernelPass himage
    ((usableEntries_requests _ memorymap _).1.trans hlast)
  have hentries := hkernel.usableEntries (image.frames_le himage).2.2.2 haligned hbelow hlast
  simpa only [false_or] using hentries

private theorem building_initPasses (himage : image.WellFormed) {memorymap : List MemoryMapEntry}
    (haligned : ∀ e ∈ memorymap, e.physicalBase % 4096 = 0)
    (hbelow : ∀ e ∈ memorymap, e.physicalBase + e.numPages * 4096 ≤ 2 ^ 47)
    (htotal : totalSize memorymap ≤ 2 ^ 47)
    (hsupplied : s.Supplied (initPasses image memorymap s)) :
    Building (s.answers s.requests) (initPasses image memorymap s).requests
      (InitView image image.kernelPages
        (fun y => (∃ e ∈ memorymap, e.type = .usable ∧ e.HasFrame y) ∨
          0 ≤ y ∧ y < 0 + totalSize memorymap / 4096)
        (fun y => ∃ e ∈ memorymap, e.type = .usable ∧ e.HasFrame y))
      (initPasses image memorymap s) :=
  (building_usableEntries himage haligned hbelow hsupplied).identityPages
    (image.frames_le himage).2.2.2 (by omega) le_rfl

end Passes

/-! ## The result -/

private theorem Implements.resolve_eq {root address : BitVec 64} {space : AddressSpace} {s : Paging}
    (h : Implements root space s) {page : BitVec 52} {writable : Bool}
    (htarget : space.target (virtualPage address) = some page)
    (hwritable : writable = true ↔ space.granted (virtualPage address)) :
    resolve s.memory (pageNumber root) true (walkIndexes address) = some (page, writable) := by
  rw [h.tree.resolve_iff, h.target, hwritable, ← h.effectivelyWritable_iff]
  exact ⟨htarget, Iff.rfl⟩

/-- The address space `paging_init` is to build: the kernel image at its virtual addresses,
writable where the image is, usable memory onto itself and writable, and the rest of memory
onto itself and read-only. -/
structure InitPromise (image : KernelImage) (memorymap : List MemoryMapEntry)
    (root : BitVec 64) (t : Paging) : Prop where
  kernel : ∀ i, image.KernelFrame i →
    resolve t.memory (pageNumber root) true
        (walkIndexes (BitVec.ofNat 64 (i * 4096 + image.virtualBase))) =
      some (BitVec.ofNat 52 i, decide (image.WritableFrame i))
  usable : ∀ i, (∃ e ∈ memorymap, e.type = .usable ∧ e.HasFrame i) →
    resolve t.memory (pageNumber root) true (walkIndexes (BitVec.ofNat 64 (i * 4096))) =
      some (BitVec.ofNat 52 i, true)
  other : ∀ i, i * 4096 < totalSize memorymap →
    ¬ (∃ e ∈ memorymap, e.type = .usable ∧ e.HasFrame i) →
    resolve t.memory (pageNumber root) true (walkIndexes (BitVec.ofNat 64 (i * 4096))) =
      some (BitVec.ofNat 52 i, false)

private theorem KernelImage.kernelFrame_iff {image : KernelImage} (h : image.WellFormed) (i : Nat) :
    image.KernelFrame i ↔ ∃ k < image.kernelPages, i = image.firstFrame + k := by
  obtain ⟨hstart, hle, hlt, -⟩ := image.frames_le h
  rw [LinkerSymbols.KernelFrame, KernelImage.kernelPages, hstart]
  constructor
  · rintro ⟨hlow, hhigh⟩
    exact ⟨i - image.firstFrame, by omega, by omega⟩
  · rintro ⟨k, hk, rfl⟩
    omega

private theorem virtualPage_kernel {image : KernelImage} (h : image.WellFormed) {k : Nat}
    (hk : k < image.kernelPages) :
    virtualPage (BitVec.ofNat 64 ((image.firstFrame + k) * 4096 + image.virtualBase)) =
      BitVec.ofNat 36 (image.firstPage + k) := by
  obtain ⟨-, -, -, hframes⟩ := image.frames_le h
  rw [virtualPage_ofNat (by rw [h.virtualBase]; omega), h.virtualBase]
  apply BitVec.eq_of_toNat_eq
  rw [BitVec.toNat_ofNat, BitVec.toNat_ofNat, KernelImage.firstPage]
  omega

private theorem virtualPage_low {x : Nat} (h : x < 2 ^ 35) :
    virtualPage (BitVec.ofNat 64 (x * 4096)) = BitVec.ofNat 36 x := by
  rw [virtualPage_ofNat (by omega), Nat.mul_div_cancel x (by decide)]

theorem Sorted.totalSize_le {memorymap : List MemoryMapEntry} (h : Sorted memorymap)
    (hbelow : ∀ e ∈ memorymap, e.physicalBase + e.numPages * 4096 ≤ 2 ^ 47) :
    totalSize memorymap ≤ 2 ^ 47 := by
  have hcount := h.pageCount_le (Nat.zero_le _) (fun _ _ => Nat.zero_le _) hbelow
  rw [totalSize_eq]
  omega

/-- On maps of page-aligned regions below `2 ^ 47` whose total size is at most `2 ^ 47`,
`paging_init` builds the promised address space, given frames for the tables. -/
theorem paging_init_address_space {image : KernelImage} (himage : image.WellFormed)
    {memorymap : List MemoryMapEntry} (haligned : ∀ e ∈ memorymap, e.physicalBase % 4096 = 0)
    (hbelow : ∀ e ∈ memorymap, e.physicalBase + e.numPages * 4096 ≤ 2 ^ 47)
    (htotal : totalSize memorymap ≤ 2 ^ 47) (s : Paging) :
    ∃ root t, pagingInit image memorymap s = some (root, t) ∧
      (s.Supplied t → InitPromise image memorymap root t) := by
  refine ⟨_, _, pagingInit_eq himage haligned hbelow (by omega) s, ?_⟩
  intro hsupplied
  obtain ⟨⟨space, hview, himplements⟩, -⟩ :=
    building_initPasses himage haligned hbelow htotal hsupplied
  obtain ⟨-, -, -, hframes⟩ := image.frames_le himage
  have hgranted : ∀ x < 2 ^ 35, space.granted (BitVec.ofNat 36 x) ↔
      ∃ e ∈ memorymap, e.type = .usable ∧ e.HasFrame x := by
    intro x hx
    rw [hview.granted x (by omega)]
    constructor
    · rintro (⟨-, husable⟩ | ⟨k, hk, -, hxk⟩)
      · exact husable
      · rw [KernelImage.firstPage] at hxk
        omega
    · intro husable
      exact .inl ⟨hx, husable⟩
  refine ⟨?_, ?_, ?_⟩
  · intro i hi
    obtain ⟨k, hk, rfl⟩ := (KernelImage.kernelFrame_iff himage i).mp hi
    apply himplements.resolve_eq
    · rw [virtualPage_kernel himage hk]
      exact hview.kernel k hk
    · rw [virtualPage_kernel himage hk, decide_eq_true_eq,
        hview.granted _ (by unfold KernelImage.firstPage; omega)]
      constructor
      · intro hw
        exact .inr ⟨k, hk, hw, rfl⟩
      · rintro (⟨hlow, -⟩ | ⟨k', hk', hw, heq⟩)
        · rw [KernelImage.firstPage] at hlow
          omega
        · rwa [Nat.add_left_cancel heq]
  · intro i husable
    have hi : i < 2 ^ 35 := by
      obtain ⟨e, he, -, hframe⟩ := husable
      have := hbelow e he
      have := hframe.2
      omega
    apply himplements.resolve_eq
    · rw [virtualPage_low hi]
      exact hview.low i hi (.inl husable)
    · rw [virtualPage_low hi, hgranted i hi]
      exact ⟨fun _ => husable, fun _ => rfl⟩
  · intro i hlt hnot
    have hi : i < 2 ^ 35 := by omega
    have hmod := totalSize_mod memorymap
    apply himplements.resolve_eq
    · rw [virtualPage_low hi]
      exact hview.low i hi (.inr (by omega))
    · rw [virtualPage_low hi, hgranted i hi]
      exact ⟨fun hfalse => absurd hfalse (by decide), fun husable => absurd husable hnot⟩

/-- An image of two pages, of which the second is writable. -/
def twoPageImage : KernelImage where
  virtualBase := 0xffffffff80000000
  kernelStart := 0xffffffff80200000
  kernelEnd := 0xffffffff80202000
  kernelWritableStart := 0xffffffff80201000
  kernelWritableEnd := 0xffffffff80202000

private theorem twoPageImage_wellFormed : twoPageImage.WellFormed :=
  ⟨rfl, by decide, rfl, by decide, by decide⟩

theorem paging_init_address_space_small :
    ∃ root t, pagingInit twoPageImage smallMap zeroedPaging = some (root, t) ∧
      zeroedPaging.Supplied t ∧ InitPromise twoPageImage smallMap root t := by
  have haligned : ∀ e ∈ smallMap, e.physicalBase % 4096 = 0 := by decide
  have hbelow : ∀ e ∈ smallMap, e.physicalBase + e.numPages * 4096 ≤ 2 ^ 47 := by decide
  have htotal : totalSize smallMap = 264 * 4096 := rfl
  obtain ⟨root, t, ht, hpromise⟩ := paging_init_address_space twoPageImage_wellFormed haligned
    hbelow (by rw [htotal]; decide) zeroedPaging
  have hpasses := pagingInit_eq twoPageImage_wellFormed haligned hbelow (by rw [htotal]; decide)
    zeroedPaging
  rw [ht, Option.some.injEq, Prod.mk.injEq] at hpasses
  have hrequests := initPasses_requests twoPageImage smallMap zeroedPaging
  rw [← hpasses.2] at hrequests
  have hsupplied : zeroedPaging.Supplied t :=
    supplied_of_consecutive rfl (hrequests.trans (by decide))
  exact ⟨root, t, ht, hsupplied, hpromise hsupplied⟩

/-- Two entries for the same 128 TiB. -/
def overlappingMap : List MemoryMapEntry := [⟨0, 2 ^ 35, .usable⟩, ⟨0, 2 ^ 35, .usable⟩]

/-- The last pass goes on to `2 ^ 48`, and maps the pages of the image away. -/
theorem paging_init_remaps_kernel :
    twoPageImage.WellFormed ∧ (∀ e ∈ overlappingMap, e.physicalBase % 4096 = 0) ∧
      (∀ e ∈ overlappingMap, e.physicalBase + e.numPages * 4096 ≤ 2 ^ 47) ∧
      ∃ root t, pagingInit twoPageImage overlappingMap zeroedPaging = some (root, t) ∧
        zeroedPaging.Supplied t ∧ ¬ InitPromise twoPageImage overlappingMap root t := by
  have haligned : ∀ e ∈ overlappingMap, e.physicalBase % 4096 = 0 := by decide
  have hbelow : ∀ e ∈ overlappingMap, e.physicalBase + e.numPages * 4096 ≤ 2 ^ 47 := by decide
  have htotal : totalSize overlappingMap = 2 ^ 48 := rfl
  have hrequests := initPasses_requests twoPageImage overlappingMap zeroedPaging
  have hsupplied : zeroedPaging.Supplied (initPasses twoPageImage overlappingMap zeroedPaging) :=
    supplied_of_consecutive rfl (hrequests.trans (by decide))
  refine ⟨twoPageImage_wellFormed, haligned, hbelow, _, _, pagingInit_eq twoPageImage_wellFormed
    haligned hbelow (by rw [htotal]; decide) zeroedPaging, hsupplied, ?_⟩
  intro hpromise
  have htwo := building_usableEntries twoPageImage_wellFormed haligned hbelow hsupplied
  obtain ⟨⟨space, hspace, himplements⟩, -⟩ := htwo.identityPages_page
    (v := 2 ^ 36 - 2 ^ 19 + 512) (n := totalSize overlappingMap / 4096) (by decide) (by decide)
    le_rfl
  have hresolve := hpromise.kernel 512 ⟨by decide, by decide⟩
  have htarget := (himplements.tree.resolve_iff.mp hresolve).1
  have hpage := virtualPage_kernel twoPageImage_wellFormed (show 0 < twoPageImage.kernelPages by
    decide)
  have hfirst : (twoPageImage.firstFrame + 0) * 4096 = 512 * 4096 := by decide
  rw [hfirst] at hpage
  rw [himplements.target, hpage] at htarget
  have hsame := hspace.symm.trans htarget
  exact absurd hsame (by decide)

end VisualOS.Kernel
