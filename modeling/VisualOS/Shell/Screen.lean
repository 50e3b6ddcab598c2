import Mathlib.Tactic
import VisualOS.Shell.Text

/-!
# Console output and the screen

Where the glyphs of a text are drawn.  A text is laid out by moving the cursor character by
character; its pixels are on the screen, whatever the font looks like, exactly when every glyph of
the layout has room between the cursor and the edges.
-/

namespace VisualOS.Kernel

structure OnScreen (framebuffer : Framebuffer) (p : Pixel) : Prop where
  column : p.x.toNat < framebuffer.width.toNat
  row : p.y.toNat < framebuffer.height.toNat
  bytes : 4 * p.index + 4 ≤ framebuffer.pitch.toNat * framebuffer.height.toNat

/-- Every character of a text with the cursor at which it is written. -/
def textLayout (framebuffer : Framebuffer) (charsize : BitVec 8) :
    Point → List (BitVec 8) → List (BitVec 8 × Point)
  | _, [] => []
  | cursor, chr :: chars =>
      (chr, cursor) ::
        textLayout framebuffer charsize (cursor.advance framebuffer charsize chr) chars

/-- A whole glyph has room between the cursor and the edges of the screen.  Rows are counted in 16
bits. -/
def GlyphFits (framebuffer : Framebuffer) (charsize : BitVec 8) (cursor : Point) : Prop :=
  charsize = 0 ∨ cursor.x.toNat + 8 ≤ framebuffer.width.toNat ∧
    cursor.y.toNat % 2 ^ 16 + charsize.toNat ≤ framebuffer.height.toNat

instance (framebuffer : Framebuffer) (charsize : BitVec 8) (cursor : Point) :
    Decidable (GlyphFits framebuffer charsize cursor) := inferInstanceAs (Decidable (_ ∨ _))

section Glyph

variable {info : TextInfo} {framebuffer : Framebuffer} {charsize chr : BitVec 8}
  {color : BitVec 32} {cursor : Point} {p : Pixel}

private theorem mem_glyphPixels : p ∈ glyphPixels info chr color cursor ↔
    chr ≠ newlineChar ∧ ∃ dy < info.font.charsize.toNat, ∃ dx < 8, glyphBit info chr dy dx ∧
      p = glyphPixel info.framebuffer color cursor dy dx := by
  rw [glyphPixels]
  split_ifs with hchr
  · simp [hchr]
  · simp [glyphRow, modulePsf1Width, hchr]

private theorem onScreen_glyphPixel_iff {dy dx : Nat}
    (hpitch : 4 * framebuffer.width.toNat ≤ framebuffer.pitch.toNat) :
    OnScreen framebuffer (glyphPixel framebuffer color cursor dy dx) ↔
      (dx + cursor.x.toNat) % 2 ^ 16 < framebuffer.width.toNat ∧
        (dy + cursor.y.toNat) % 2 ^ 16 < framebuffer.height.toNat := by
  constructor
  · intro h
    exact ⟨by simpa [glyphPixel, framebufferPixel] using h.column, by simpa [glyphPixel, framebufferPixel] using h.row⟩
  · rintro ⟨hcolumn, hrow⟩
    apply OnScreen.mk
    · simpa [glyphPixel, framebufferPixel] using hcolumn
    · simpa [glyphPixel, framebufferPixel] using hrow
    · simp only [glyphPixel, framebufferPixel, BitVec.toNat_ofNat]
      generalize (dx + cursor.x.toNat) % 2 ^ 16 = x at hcolumn ⊢
      generalize (dy + cursor.y.toNat) % 2 ^ 16 = y at hrow ⊢
      calc 4 * (y * framebuffer.width.toNat + x) + 4
          ≤ 4 * (y * framebuffer.width.toNat + framebuffer.width.toNat) := by omega
        _ = 4 * framebuffer.width.toNat * (y + 1) := by ring
        _ ≤ framebuffer.pitch.toNat * framebuffer.height.toNat := Nat.mul_le_mul hpitch hrow

private theorem glyph_onScreen_iff (hpitch : 4 * framebuffer.width.toNat ≤ framebuffer.pitch.toNat)
    (hx : cursor.x.toNat < framebuffer.width.toNat) :
    (∀ dy < charsize.toNat, ∀ dx < 8,
        OnScreen framebuffer (glyphPixel framebuffer color cursor dy dx)) ↔
      GlyphFits framebuffer charsize cursor := by
  simp only [onScreen_glyphPixel_iff hpitch]
  have hwidth := framebuffer.pitch.isLt
  have hheight := framebuffer.height.isLt
  constructor
  · intro h
    by_cases hsize : charsize.toNat = 0
    · exact .inl (BitVec.eq_of_toNat_eq hsize)
    · refine .inr ⟨?_, ?_⟩
      · have := (h 0 (by omega) 7 (by omega)).1
        omega
      · by_contra hrows
        -- The first row of the glyph at or below the end of the screen.
        have := (h (framebuffer.height.toNat - cursor.y.toNat % 2 ^ 16) (by omega) 0 (by omega)).2
        omega
  · intro h dy hdy dx hdx
    rcases h with hzero | ⟨hcolumns, hrows⟩
    · simp [hzero] at hdy
    · omega

end Glyph

/-! ## A whole text -/

section Layout

variable {info : TextInfo} {framebuffer : Framebuffer} {charsize chr : BitVec 8}
  {cursor : Point}

private theorem advance_x (hwidth : 0 < framebuffer.width.toNat) :
    (cursor.advance framebuffer charsize chr).x.toNat < framebuffer.width.toNat := by
  rw [Point.advance]
  split_ifs with h
  · exact h.2
  · exact hwidth

private theorem textLayout_x {chars : List (BitVec 8)}
    (hx : cursor.x.toNat < framebuffer.width.toNat) :
    ∀ place ∈ textLayout framebuffer charsize cursor chars,
      place.2.x.toNat < framebuffer.width.toNat := by
  induction chars generalizing cursor with
  | nil => simp [textLayout]
  | cons chr chars ih =>
      rw [textLayout, List.forall_mem_cons]
      exact ⟨hx, ih (advance_x (by omega))⟩

/-- The glyph of a character at a place, in any colour. -/
def PlaceOnScreen (info : TextInfo) (place : BitVec 8 × Point) : Prop :=
  ∀ color, ∀ p ∈ glyphPixels info place.1 color place.2, OnScreen info.framebuffer p

private theorem onScreen_glyphPixels_iff {color : BitVec 32} :
    (∀ p ∈ glyphPixels info chr color cursor, OnScreen info.framebuffer p) ↔
      PlaceOnScreen info (chr, cursor) := by
  constructor
  · intro h color' p hp
    obtain ⟨hchr, dy, hdy, dx, hdx, hbit, rfl⟩ := mem_glyphPixels.mp hp
    -- Only the column, the row and the index of a pixel matter.
    have := h _ (mem_glyphPixels.mpr ⟨hchr, dy, hdy, dx, hdx, hbit, rfl⟩)
    exact ⟨this.column, this.row, this.bytes⟩
  · exact fun h => h color

private theorem onScreen_foldl_iff (info : TextInfo) (items : List TextItem) (s : Text) :
    (∀ p ∈ (items.foldl (TextItem.put info) s).pixels, OnScreen info.framebuffer p) ↔
      (∀ p ∈ s.pixels, OnScreen info.framebuffer p) ∧
        ∀ place ∈ textLayout info.framebuffer info.font.charsize s.cursor
          (items.filterMap TextItem.chr?), PlaceOnScreen info place := by
  induction items generalizing s with
  | nil => simp [textLayout]
  | cons item items ih =>
      rw [List.foldl_cons, ih]
      cases item with
      | char chr =>
          simp only [TextItem.put, textOutputChar, textOutputCharColor_eq, List.forall_mem_append,
            onScreen_glyphPixels_iff, TextItem.chr?, List.filterMap_cons, textLayout,
            List.forall_mem_cons, and_assoc]
      | charColor chr color =>
          simp only [TextItem.put, textOutputCharColor_eq, List.forall_mem_append,
            onScreen_glyphPixels_iff, TextItem.chr?, List.filterMap_cons, textLayout,
            List.forall_mem_cons, and_assoc]
      | setColor color => simp only [TextItem.put, TextItem.chr?, List.filterMap_cons]

private theorem onScreen_calls_iff (info : TextInfo) {calls : List TextCall} {color : BitVec 32}
    (hcalls : ∀ call ∈ calls, call.Terminated) :
    (∃ t, calls.foldlM (TextCall.exec info) ⟨cursor, color, [], []⟩ = some t ∧
        ∀ p ∈ t.pixels, OnScreen info.framebuffer p) ↔
      ∀ place ∈ textLayout info.framebuffer info.font.charsize cursor
        (calls.flatMap TextCall.chars), PlaceOnScreen info place := by
  have hrun := onScreen_foldl_iff info (calls.flatMap TextCall.items) ⟨cursor, color, [], []⟩
  rw [List.filterMap_flatMap] at hrun
  simp only [TextCall.foldlM_exec_eq hcalls, Option.some.injEq, exists_eq_left', hrun,
    List.not_mem_nil, false_imp_iff, implies_true, true_and]
  rfl

private theorem glyphBit_full {dy dx : Nat} (hdx : dx < 8) :
    glyphBit ⟨framebuffer, ⟨charsize, fun _ => 0xff⟩⟩ chr dy dx := by
  have hbits : ∀ dx < 8, 0 < 0xff#8 &&& (0b10000000#8 >>> dx) := by decide
  exact hbits dx hdx

private theorem placeOnScreen_iff {place : BitVec 8 × Point}
    (hpitch : 4 * framebuffer.width.toNat ≤ framebuffer.pitch.toNat)
    (hx : place.2.x.toNat < framebuffer.width.toNat) :
    (∀ body, PlaceOnScreen ⟨framebuffer, ⟨charsize, body⟩⟩ place) ↔
      (place.1 ≠ newlineChar → GlyphFits framebuffer charsize place.2) := by
  constructor
  · intro h hchr
    apply (glyph_onScreen_iff hpitch hx).mp
    intro dy hdy dx hdx
    exact h (fun _ => 0xff) 0 _ (mem_glyphPixels.mpr
      ⟨hchr, dy, hdy, dx, hdx, glyphBit_full hdx, rfl⟩)
  · intro h body color p hp
    obtain ⟨hchr, dy, hdy, dx, hdx, -, rfl⟩ := mem_glyphPixels.mp hp
    exact (glyph_onScreen_iff hpitch hx).mpr (h hchr) dy hdy dx hdx

end Layout

/-- The pixels of any calls, in every font of the height, are on the screen exactly when every
character other than a newline finds room for its glyph. -/
theorem console_output_on_screen_iff {framebuffer : Framebuffer} {charsize : BitVec 8}
    {cursor : Point} (color : BitVec 32) {calls : List TextCall}
    (hpitch : 4 * framebuffer.width.toNat ≤ framebuffer.pitch.toNat)
    (hx : cursor.x.toNat < framebuffer.width.toNat)
    (hcalls : ∀ call ∈ calls, call.Terminated) :
    (∀ body, ∃ t, calls.foldlM (TextCall.exec ⟨framebuffer, ⟨charsize, body⟩⟩)
        ⟨cursor, color, [], []⟩ = some t ∧ ∀ p ∈ t.pixels, OnScreen framebuffer p) ↔
      ∀ place ∈ textLayout framebuffer charsize cursor (calls.flatMap TextCall.chars),
        place.1 ≠ newlineChar → GlyphFits framebuffer charsize place.2 := by
  simp only [onScreen_calls_iff _ hcalls]
  constructor
  · intro h place hplace
    exact (placeOnScreen_iff hpitch (textLayout_x hx place hplace)).mp
      (fun body => h body place hplace)
  · intro h body place hplace
    exact (placeOnScreen_iff hpitch (textLayout_x hx place hplace)).mpr (h place hplace) body

/-- Two lines on a screen of two, in a font that draws every pixel of a glyph. -/
theorem console_output_on_screen_two :
    ∃ t, [TextCall.outputSize (byteText [0x61, 0x0a, 0x62]) 3, .output (byteText [0x63]) 2,
          .outputCharColor 0x0a textColorRed].foldlM
        (TextCall.exec ⟨⟨16, 32, 64⟩, ⟨16, fun _ => 0xff⟩⟩) ⟨⟨0, 0⟩, textColorWhite, [], []⟩ = some t ∧
      ∀ p ∈ t.pixels, OnScreen ⟨16, 32, 64⟩ p := by
  apply (console_output_on_screen_iff textColorWhite (by decide) (by decide) _).mpr
  · decide
  · simp only [List.forall_mem_cons, TextCall.Terminated, List.not_mem_nil, false_imp_iff,
      implies_true, and_true, true_and]
    exact ⟨1, by decide, rfl⟩

/-- Thirty lines fill a screen of 480 rows. -/
theorem console_output_below_screen :
    ∃ body, ∃ t, [TextCall.outputSize (byteText (List.replicate 30 0x0a ++ [0x61])) 31].foldlM
        (TextCall.exec ⟨⟨640, 480, 2560⟩, ⟨16, body⟩⟩) ⟨⟨0, 0⟩, textColorWhite, [], []⟩ = some t ∧
      ∃ p ∈ t.pixels, ¬OnScreen ⟨640, 480, 2560⟩ p := by
  refine ⟨fun _ => 0xff, _, rfl, ⟨0, 480, 480 * 640, textColorWhite⟩, by decide +kernel, ?_⟩
  exact fun h => absurd h.row (by decide)

end VisualOS.Kernel
