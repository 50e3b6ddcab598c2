import Mathlib.Tactic
import VisualOS.Shell.Text
import VisualOS.X86.Acpi

/-!
# Drawing an image

`shell_draw_tga` of `shell.c` on the bytes of the framebuffer.  It steps through the image with the
height of the image for the length of a row, and through the framebuffer with the width of the screen
for the length of a row, whatever the pitch is.
-/

namespace VisualOS.Kernel

/-- What is drawn of a TGA module: two fields of its header, and the memory from the first pixel
on. -/
structure ModuleTga where
  width : BitVec 16
  height : BitVec 16
  body : Nat → BitVec 32

/-- A little-endian store. -/
def writeUint32 (memory : Nat → BitVec 8) (offset : Nat) (value : BitVec 32) : Nat → BitVec 8 :=
  fun a => if offset ≤ a ∧ a < offset + 4 then value.extractLsb' (8 * (a - offset)) 8 else memory a

/-- What a call of `framebuffer_putpix32` leaves in the memory from `base` on. -/
def Pixel.store (p : Pixel) (memory : Nat → BitVec 8) : Nat → BitVec 8 :=
  writeUint32 memory (4 * p.index) p.pix

section Model

variable (framebuffer : Framebuffer) (image : ModuleTga) (xoff yoff : BitVec 32)

def shellDrawTga (memory : Nat → BitVec 8) : Nat → BitVec 8 :=
  (List.range image.height.toNat).foldl (fun memory dy =>
    (List.range image.width.toNat).foldl (fun memory dx =>
      let offset := dx + image.height.toNat * dy
      let color := image.body offset
      let x := dx + xoff.toNat
      let y := dy + yoff.toNat
      (framebufferPixel framebuffer (BitVec.ofNat 16 x) (BitVec.ofNat 16 y) color).store memory)
      memory) memory

/-- Where a pixel of the image belongs, in bytes from `base` on. -/
def pixelOffset (dx dy : Nat) : Nat :=
  (yoff.toNat + dy) * framebuffer.pitch.toNat + 4 * (xoff.toNat + dx)

/-- The image is in its place, and the rest of the framebuffer is as it was. -/
structure DrawnFaithfully (before after : Nat → BitVec 8) : Prop where
  pixels : ∀ dx < image.width.toNat, ∀ dy < image.height.toNat,
    readUint32 after (pixelOffset framebuffer xoff yoff dx dy) =
      image.body (dy * image.width.toNat + dx)
  rest : ∀ a < framebuffer.pitch.toNat * framebuffer.height.toNat,
    (∀ dx < image.width.toNat, ∀ dy < image.height.toNat,
      ¬(pixelOffset framebuffer xoff yoff dx dy ≤ a ∧
        a < pixelOffset framebuffer xoff yoff dx dy + 4)) → after a = before a

end Model

/-! ## Stores -/

section Stores

variable {memory : Nat → BitVec 8} {pixels : List Pixel} {a : Nat}

private theorem getLsbD_readUint32 {offset i : Nat} (hi : i < 32) :
    (readUint32 memory offset).getLsbD i = (memory (offset + i / 8)).getLsbD (i % 8) := by
  have hbyte : i / 8 = 0 ∨ i / 8 = 1 ∨ i / 8 = 2 ∨ i / 8 = 3 := by omega
  simp only [readUint32, BitVec.getLsbD_append]
  rcases hbyte with h | h | h | h
  · rw [if_pos (by omega), show i % 8 = i by omega, h, Nat.add_zero]
  · rw [if_neg (by omega), if_pos (by omega), show i % 8 = i - 8 by omega, h]
  · rw [if_neg (by omega), if_neg (by omega), if_pos (by omega), show i % 8 = i - 8 - 8 by omega, h]
  · rw [if_neg (by omega), if_neg (by omega), if_neg (by omega),
      show i % 8 = i - 8 - 8 - 8 by omega, h]

private theorem readUint32_eq_iff {offset : Nat} {value : BitVec 32} :
    readUint32 memory offset = value ↔
      ∀ k < 4, memory (offset + k) = value.extractLsb' (8 * k) 8 := by
  constructor
  · rintro rfl k hk
    apply BitVec.eq_of_getLsbD_eq
    intro i hi
    rw [BitVec.getLsbD_extractLsb', getLsbD_readUint32 (by omega), show (8 * k + i) / 8 = k by omega,
      show (8 * k + i) % 8 = i by omega]
    simp [hi]
  · intro h
    apply BitVec.eq_of_getLsbD_eq
    intro i hi
    rw [getLsbD_readUint32 hi, h (i / 8) (by omega), BitVec.getLsbD_extractLsb',
      show 8 * (i / 8) + i % 8 = i by omega]
    simp [Nat.mod_lt]

private theorem Pixel.store_apply (p : Pixel) (memory : Nat → BitVec 8) (a : Nat) :
    p.store memory a = if p.index = a / 4 then p.pix.extractLsb' (8 * (a % 4)) 8 else memory a := by
  unfold Pixel.store writeUint32
  by_cases h : p.index = a / 4
  · rw [if_pos h, if_pos (by omega), show a - 4 * p.index = a % 4 by omega]
  · rw [if_neg h, if_neg (by omega)]

private theorem foldl_store_other (h : ∀ p ∈ pixels, p.index ≠ a / 4) :
    pixels.foldl (fun memory p => p.store memory) memory a = memory a := by
  induction pixels generalizing memory with
  | nil => rfl
  | cons p pixels ih =>
      rw [List.forall_mem_cons] at h
      rw [List.foldl_cons, ih h.2, Pixel.store_apply, if_neg h.1]

private theorem foldl_store_index {value : BitVec 32} (hmem : ∃ p ∈ pixels, p.index = a / 4)
    (hvalue : ∀ p ∈ pixels, p.index = a / 4 → p.pix = value) :
    pixels.foldl (fun memory p => p.store memory) memory a = value.extractLsb' (8 * (a % 4)) 8 := by
  induction pixels using List.reverseRecOn with
  | nil => simp at hmem
  | append_singleton pixels p ih =>
      rw [List.foldl_append, List.foldl_cons, List.foldl_nil, Pixel.store_apply]
      by_cases hp : p.index = a / 4
      · rw [if_pos hp, hvalue p (by simp) hp]
      · rw [if_neg hp]
        apply ih
        · obtain ⟨q, hq, hindex⟩ := hmem
          rw [List.mem_append, List.mem_singleton] at hq
          rcases hq with hq | rfl
          · exact ⟨q, hq, hindex⟩
          · exact absurd hindex hp
        · intro q hq
          exact hvalue q (List.mem_append_left _ hq)

end Stores

/-! ## The loops -/

section Loops

/-- The image lies on the screen, and a row of the screen fits into the pitch. -/
structure ImageFits (framebuffer : Framebuffer) (image : ModuleTga) (xoff yoff : BitVec 32) :
    Prop where
  pitch : 4 * framebuffer.width.toNat ≤ framebuffer.pitch.toNat
  columns : xoff.toNat + image.width.toNat ≤ framebuffer.width.toNat
  rows : yoff.toNat + image.height.toNat ≤ framebuffer.height.toNat

/-- The calls of `framebuffer_putpix32` in their order. -/
def tgaPixels (framebuffer : Framebuffer) (image : ModuleTga) (xoff yoff : BitVec 32) : List Pixel :=
  (List.range image.height.toNat).flatMap fun dy => (List.range image.width.toNat).map fun dx =>
    framebufferPixel framebuffer (BitVec.ofNat 16 (dx + xoff.toNat))
      (BitVec.ofNat 16 (dy + yoff.toNat)) (image.body (dx + image.height.toNat * dy))

variable {framebuffer : Framebuffer} {image : ModuleTga} {xoff yoff : BitVec 32}
  {memory : Nat → BitVec 8} {dx dy a : Nat}

private theorem shellDrawTga_eq_foldl :
    shellDrawTga framebuffer image xoff yoff memory =
      (tgaPixels framebuffer image xoff yoff).foldl (fun memory p => p.store memory) memory := by
  simp only [shellDrawTga, tgaPixels, List.foldl_flatMap, List.foldl_map]

private theorem mem_tgaPixels {p : Pixel} :
    p ∈ tgaPixels framebuffer image xoff yoff ↔
      ∃ dy < image.height.toNat, ∃ dx < image.width.toNat,
        framebufferPixel framebuffer (BitVec.ofNat 16 (dx + xoff.toNat))
          (BitVec.ofNat 16 (dy + yoff.toNat)) (image.body (dx + image.height.toNat * dy)) = p := by
  simp only [tgaPixels, List.mem_flatMap, List.mem_map, List.mem_range]

private theorem framebufferPixel_index (hfits : ImageFits framebuffer image xoff yoff)
    (hdx : dx < image.width.toNat) (hdy : dy < image.height.toNat) (pix : BitVec 32) :
    (framebufferPixel framebuffer (BitVec.ofNat 16 (dx + xoff.toNat))
        (BitVec.ofNat 16 (dy + yoff.toNat)) pix).index =
      (yoff.toNat + dy) * framebuffer.width.toNat + (xoff.toNat + dx) := by
  have hwidth := framebuffer.width.isLt
  have hheight := framebuffer.height.isLt
  have hcolumns := hfits.columns
  have hrows := hfits.rows
  simp only [framebufferPixel, BitVec.toNat_ofNat]
  rw [Nat.mod_eq_of_lt (by omega), Nat.mod_eq_of_lt (by omega), Nat.add_comm dy, Nat.add_comm dx]

private theorem index_injective {width x y x' y' : Nat} (hx : x < width) (hx' : x' < width)
    (h : y * width + x = y' * width + x') : x = x' ∧ y = y' := by
  have hpos : 0 < width := Nat.zero_lt_of_lt hx
  have hdiv := congrArg (· / width) h
  have hmod := congrArg (· % width) h
  simp only [Nat.mul_comm _ width, Nat.mul_add_div hpos, Nat.div_eq_of_lt hx, Nat.div_eq_of_lt hx',
    Nat.add_zero] at hdiv
  simp only [Nat.mul_add_mod_self_right, Nat.mod_eq_of_lt hx, Nat.mod_eq_of_lt hx'] at hmod
  exact ⟨hmod, hdiv⟩

/-- What is drawn: the pixel that is read with the wrong stride, at the index in the screen. -/
theorem shellDrawTga_written (hfits : ImageFits framebuffer image xoff yoff)
    (hdx : dx < image.width.toNat) (hdy : dy < image.height.toNat)
    (ha : a / 4 = (yoff.toNat + dy) * framebuffer.width.toNat + (xoff.toNat + dx)) :
    shellDrawTga framebuffer image xoff yoff memory a =
      (image.body (dx + image.height.toNat * dy)).extractLsb' (8 * (a % 4)) 8 := by
  have hcolumns := hfits.columns
  rw [shellDrawTga_eq_foldl]
  apply foldl_store_index
  · rw [ha]
    exact ⟨_, mem_tgaPixels.mpr ⟨dy, hdy, dx, hdx, rfl⟩, framebufferPixel_index hfits hdx hdy _⟩
  · intro p hp hindex
    obtain ⟨dy', hdy', dx', hdx', rfl⟩ := mem_tgaPixels.mp hp
    rw [framebufferPixel_index hfits hdx' hdy', ha] at hindex
    obtain ⟨hx, hy⟩ := index_injective (by omega) (by omega) hindex
    obtain rfl : dx' = dx := by omega
    obtain rfl : dy' = dy := by omega
    rfl

private theorem shellDrawTga_other (hfits : ImageFits framebuffer image xoff yoff)
    (ha : ∀ dx < image.width.toNat, ∀ dy < image.height.toNat,
      a / 4 ≠ (yoff.toNat + dy) * framebuffer.width.toNat + (xoff.toNat + dx)) :
    shellDrawTga framebuffer image xoff yoff memory a = memory a := by
  rw [shellDrawTga_eq_foldl]
  apply foldl_store_other
  intro p hp hindex
  obtain ⟨dy, hdy, dx, hdx, rfl⟩ := mem_tgaPixels.mp hp
  rw [framebufferPixel_index hfits hdx hdy] at hindex
  exact ha dx hdx dy hdy hindex.symm

/-- Where the pitch is that of the width, or where only the first row of the screen is drawn on, the
pixels go to where they belong. -/
theorem pixelOffset_eq_index
    (hpitch : framebuffer.pitch.toNat = 4 * framebuffer.width.toNat ∨
      yoff.toNat + image.height.toNat = 1) (hdy : dy < image.height.toNat) (dx : Nat) :
    pixelOffset framebuffer xoff yoff dx dy =
      4 * ((yoff.toNat + dy) * framebuffer.width.toNat + (xoff.toNat + dx)) := by
  unfold pixelOffset
  rcases hpitch with hpitch | hrow
  · rw [hpitch]
    ring
  · rw [show yoff.toNat + dy = 0 by omega, Nat.zero_mul, Nat.zero_mul, Nat.zero_add, Nat.zero_add]

private theorem readUint32_drawn (hfits : ImageFits framebuffer image xoff yoff)
    (hpitch : framebuffer.pitch.toNat = 4 * framebuffer.width.toNat ∨
      yoff.toNat + image.height.toNat = 1)
    (hdx : dx < image.width.toNat) (hdy : dy < image.height.toNat) :
    readUint32 (shellDrawTga framebuffer image xoff yoff memory)
      (pixelOffset framebuffer xoff yoff dx dy) = image.body (dx + image.height.toNat * dy) := by
  rw [readUint32_eq_iff, pixelOffset_eq_index hpitch hdy]
  intro k hk
  rw [shellDrawTga_written hfits hdx hdy (by omega)]
  congr 1
  omega

private theorem shellDrawTga_last (hfits : ImageFits framebuffer image xoff yoff)
    (hwidth : 0 < image.width.toNat) (hheight : 0 < image.height.toNat)
    (hpitch : framebuffer.pitch.toNat ≠ 4 * framebuffer.width.toNat)
    (hrow : yoff.toNat + image.height.toNat ≠ 1) :
    let last := pixelOffset framebuffer xoff yoff (image.width.toNat - 1) (image.height.toNat - 1)
    shellDrawTga framebuffer image xoff yoff memory (last + 3) = memory (last + 3) := by
  apply shellDrawTga_other hfits
  intro dx hdx dy hdy
  have hlonger := hfits.pitch
  have hrows : (yoff.toNat + dy) * framebuffer.width.toNat ≤
      (yoff.toNat + (image.height.toNat - 1)) * framebuffer.width.toNat :=
    Nat.mul_le_mul_right _ (by omega)
  have hlast : (yoff.toNat + (image.height.toNat - 1)) * (4 * framebuffer.width.toNat + 1) ≤
      (yoff.toNat + (image.height.toNat - 1)) * framebuffer.pitch.toNat :=
    Nat.mul_le_mul_left _ (by omega)
  rw [Nat.mul_add, Nat.mul_left_comm] at hlast
  unfold pixelOffset
  omega

private theorem drawnFaithfully_of_empty (hfits : ImageFits framebuffer image xoff yoff)
    (hempty : image.width.toNat = 0 ∨ image.height.toNat = 0) :
    DrawnFaithfully framebuffer image xoff yoff memory
      (shellDrawTga framebuffer image xoff yoff memory) := by
  apply DrawnFaithfully.mk
  · intro dx hdx dy hdy
    omega
  · intro a _ _
    apply shellDrawTga_other hfits
    intro dx hdx dy hdy
    omega

private theorem drawnFaithfully_of_colors (hfits : ImageFits framebuffer image xoff yoff)
    (hpitch : framebuffer.pitch.toNat = 4 * framebuffer.width.toNat ∨
      yoff.toNat + image.height.toNat = 1)
    (hcolors : ∀ dx < image.width.toNat, ∀ dy < image.height.toNat,
      image.body (dx + image.height.toNat * dy) = image.body (dx + image.width.toNat * dy)) :
    DrawnFaithfully framebuffer image xoff yoff memory
      (shellDrawTga framebuffer image xoff yoff memory) := by
  apply DrawnFaithfully.mk
  · intro dx hdx dy hdy
    rw [readUint32_drawn hfits hpitch hdx hdy, hcolors dx hdx dy hdy, Nat.mul_comm dy,
      Nat.add_comm dx]
  · intro a _ hoff
    apply shellDrawTga_other hfits
    intro dx hdx dy hdy ha
    apply hoff dx hdx dy hdy
    rw [pixelOffset_eq_index hpitch hdy]
    omega

/-- A framebuffer in which the last byte of the image is not there yet shows that the pitch has been
ignored. -/
theorem pitch_of_drawnFaithfully (hfits : ImageFits framebuffer image xoff yoff)
    (hwidth : 0 < image.width.toNat) (hheight : 0 < image.height.toNat)
    (hdrawn : ∀ memory, DrawnFaithfully framebuffer image xoff yoff memory
      (shellDrawTga framebuffer image xoff yoff memory)) :
    framebuffer.pitch.toNat = 4 * framebuffer.width.toNat ∨
      yoff.toNat + image.height.toNat = 1 := by
  by_contra hnot
  rw [not_or] at hnot
  let last := image.body ((image.height.toNat - 1) * image.width.toNat + (image.width.toNat - 1))
  have hpixel := (hdrawn fun _ => ~~~last.extractLsb' (8 * 3) 8).pixels (image.width.toNat - 1)
    (by omega) (image.height.toNat - 1) (by omega)
  have hbyte := readUint32_eq_iff.mp hpixel 3 (by decide)
  rw [shellDrawTga_last hfits hwidth hheight hnot.1 hnot.2] at hbyte
  have hbit := congrArg (fun byte => byte.getLsbD 0) hbyte
  simp [last] at hbit

end Loops

/-- Whatever the framebuffer held, the image is drawn faithfully if and only if it has no pixels, or
the pitch makes no difference and the two strides through the image read the same pixels. -/
theorem shell_draw_tga_faithful_iff {framebuffer : Framebuffer} {image : ModuleTga}
    {xoff yoff : BitVec 32} (hfits : ImageFits framebuffer image xoff yoff) :
    (∀ memory, DrawnFaithfully framebuffer image xoff yoff memory
        (shellDrawTga framebuffer image xoff yoff memory)) ↔
      image.width.toNat = 0 ∨ image.height.toNat = 0 ∨
        (framebuffer.pitch.toNat = 4 * framebuffer.width.toNat ∨
            yoff.toNat + image.height.toNat = 1) ∧
          ∀ dx < image.width.toNat, ∀ dy < image.height.toNat,
            image.body (dx + image.height.toNat * dy) = image.body (dx + image.width.toNat * dy) := by
  constructor
  · intro hdrawn
    by_cases hwidth : image.width.toNat = 0
    · exact .inl hwidth
    by_cases hheight : image.height.toNat = 0
    · exact .inr (.inl hheight)
    have hpitch := pitch_of_drawnFaithfully hfits (by omega) (by omega) hdrawn
    refine .inr (.inr ⟨hpitch, fun dx hdx dy hdy => ?_⟩)
    have hpixel := (hdrawn fun _ => 0).pixels dx hdx dy hdy
    rw [readUint32_drawn hfits hpitch hdx hdy] at hpixel
    rw [hpixel, Nat.mul_comm dy, Nat.add_comm dx]
  · intro hcondition memory
    rcases hcondition with hwidth | hheight | ⟨hpitch, hcolors⟩
    · exact drawnFaithfully_of_empty hfits (.inl hwidth)
    · exact drawnFaithfully_of_empty hfits (.inr hheight)
    · exact drawnFaithfully_of_colors hfits hpitch hcolors

/-- A square image on a screen without padding. -/
theorem shell_draw_tga_faithful_square :
    let framebuffer : Framebuffer := ⟨2, 2, 8⟩
    let image : ModuleTga := ⟨2, 2, fun i => BitVec.ofNat 32 i⟩
    DrawnFaithfully framebuffer image 0 0 (fun _ => 0)
      (shellDrawTga framebuffer image 0 0 fun _ => 0) :=
  (@shell_draw_tga_faithful_iff ⟨2, 2, 8⟩ ⟨2, 2, fun i => BitVec.ofNat 32 i⟩ 0 0
    ⟨by decide, by decide, by decide⟩).mpr
      (.inr (.inr ⟨.inl rfl, fun _ _ _ _ => rfl⟩)) fun _ => 0

/-- An image of one column and two rows is drawn with the pixel behind its body in the second row; and
an image of one pixel in the second row of a screen with padding is drawn into the padding. -/
theorem shell_draw_tga_unfaithful :
    let tall : ModuleTga := ⟨1, 2, fun i => BitVec.ofNat 32 (i + 1)⟩
    let dot : ModuleTga := ⟨1, 1, fun i => BitVec.ofNat 32 (i + 1)⟩
    (ImageFits ⟨1, 2, 4⟩ tall 0 0 ∧
        ¬DrawnFaithfully ⟨1, 2, 4⟩ tall 0 0 (fun _ => 0) (shellDrawTga ⟨1, 2, 4⟩ tall 0 0 fun _ => 0)) ∧
      ImageFits ⟨1, 2, 8⟩ dot 0 1 ∧
        ¬DrawnFaithfully ⟨1, 2, 8⟩ dot 0 1 (fun _ => 0) (shellDrawTga ⟨1, 2, 8⟩ dot 0 1 fun _ => 0) := by
  intro tall dot
  refine ⟨⟨⟨by decide, by decide, by decide⟩, fun h => ?_⟩,
    ⟨by decide, by decide, by decide⟩, fun h => ?_⟩
  · exact absurd (h.pixels 0 (by decide) 1 (by decide)) (by decide)
  · exact absurd (h.pixels 0 (by decide) 0 (by decide)) (by decide)

end VisualOS.Kernel
