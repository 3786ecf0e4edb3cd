import Ziemniak.Stage2.Video

/-! # The stores of the text output

The functions of `video.c` with a list of what they computed and stored: the cell of every
character and the index of every word of the frame buffer.  Forgetting the list leaves the
functions of the driver (`putcM_val`, `clrM_val`, `printM_val`).

`Reached` are the states after `video_init` and any calls, those between two characters of a
string included, also of one that never ends.  `reached_bounds` bounds the cursor and every
store in all of them: the column may stand one behind the last, because `putc` wraps first. -/

namespace Ziemniak.Stage2.Video

open BareMetal

/-! ### The driver and its stores -/

/-- What is noted: the cell `putc` draws with its position, a pixel with its index, and a word
that is cleared. -/
inductive Access where
  | cell (text_col text_row x y : BitVec 16)
  | pixel (x y : BitVec 16) (pos : BitVec 32)
  | clear (i : BitVec 32)
deriving DecidableEq, Repr

/-- Nothing is lost in the products, and the index lies on the screen. -/
def Access.Ok (width height : BitVec 16) : Access → Prop
  | cell text_col text_row x y =>
      x.toNat = text_col.toNat * 8 ∧ y.toNat = text_row.toNat * 16
  | pixel x y pos =>
      pos.toNat = y.toNat * width.toNat + x.toNat ∧ pos.toNat < width.toNat * height.toNat
  | clear i => i.toNat < width.toNat * height.toNat

/-- The driver's variables and what it has done. -/
abbrev Noted := Video × List Access

def setpixelM (s : Noted) (x y : BitVec 16) (val : BitVec 32) : Noted :=
  let pos : BitVec 32 := y.setWidth 32 * s.1.scr_width.setWidth 32 + x.setWidth 32
  (s.1.setpixel x y val, s.2 ++ [.pixel x y pos])

def glyphPixelM (glyph : BitVec 16 → BitVec 8) (x y fnt_y fnt_x : BitVec 16) (s : Noted) : Noted :=
  if glyph fnt_y &&& ((128 : BitVec 8) >>> fnt_x.toNat) ≠ 0 then
    setpixelM s (x + fnt_x) (y + fnt_y) 0xFFFFFFFF
  else setpixelM s (x + fnt_x) (y + fnt_y) 0x00000000

def glyphM (glyph : BitVec 16 → BitVec 8) (x y : BitVec 16) (s : Noted) : Noted :=
  rounds (fun fnt_y s => rounds (glyphPixelM glyph x y fnt_y) (List.range 8) s) (List.range 16) s

def putcM (s : Noted) (chr : BitVec 8) : Noted :=
  let glyph := fun fnt_y : BitVec 16 => s.1.bios_font (chr.toNat * 16 + fnt_y.toNat)
  let v := if s.1.scr_width / FONT_SIZE_X ≤ s.1.text_col then s.1.newline else s.1
  let x := v.text_col * FONT_SIZE_X
  let y := v.text_row * FONT_SIZE_Y
  let s := glyphM glyph x y (v, s.2 ++ [.cell v.text_col v.text_row x y])
  ({ s.1 with text_col := s.1.text_col + 1 }, s.2)

def clrM (s : Noted) : Noted :=
  let bound : BitVec 32 := s.1.scr_width.setWidth 32 * s.1.scr_height.setWidth 32
  rounds (fun (i : BitVec 32) s =>
      ({ s.1 with vid_buf := Function.update s.1.vid_buf i.toNat 0x00 }, s.2 ++ [.clear i]))
    (List.range bound.toNat) s

/-- One round of the loop of `video_print`, at index `s.1`. -/
def printRoundM (text : ℕ → BitVec 8) (s : BitVec 16 × Noted) : Option (BitVec 16 × Noted) :=
  some (s.1 + 1, if text s.1.toNat = 0x0A then (s.2.1.newline, s.2.2)
    else putcM s.2 (text s.1.toNat))

def printM (fuel : ℕ) (text : ℕ → BitVec 8) (s : Noted) : Option Noted :=
  (whileLoop (fun s : BitVec 16 × Noted => text s.1.toNat != 0) (printRoundM text) fuel
    (0, s)).map Prod.snd

def printHexM (fuel : ℕ) (val : BitVec 64) (offset : BitVec 8) (s : Noted) : Option Noted :=
  if offset < 16 then do
    let s ← printM fuel (fun i => [0x30, 0x78].getD i 0) s
    let s ← printM fuel (fun i => convertHex val (offset.toNat + i)) s
    printM fuel (fun i => [0x20].getD i 0) s
  else some s

theorem glyphPixelM_val (glyph : BitVec 16 → BitVec 8) (x y fnt_y fnt_x : BitVec 16) (s : Noted) :
    (glyphPixelM glyph x y fnt_y fnt_x s).1 = glyphPixel glyph x y fnt_y fnt_x s.1 := by
  unfold glyphPixelM glyphPixel
  split_ifs <;> rfl

theorem putcM_val (s : Noted) (chr : BitVec 8) : (putcM s chr).1 = s.1.putc chr := by
  have hrow : ∀ glyph x y (fnt_y : BitVec 16) (s : Noted),
      (rounds (glyphPixelM glyph x y fnt_y) (List.range 8) s).1 =
        rounds (glyphPixel glyph x y fnt_y) (List.range 8) s.1 :=
    fun glyph x y fnt_y s => rounds_map Prod.fst (glyphPixelM_val glyph x y fnt_y) _ s
  unfold putcM putc glyphM
  simp only [rounds_map Prod.fst (hrow _ _ _)]

theorem clrM_val (s : Noted) : (clrM s).1 = s.1.clr := by
  unfold clrM clr
  exact rounds_map Prod.fst (fun _ _ => rfl) _ s

theorem printM_val (fuel : ℕ) (text : ℕ → BitVec 8) (s : Noted) :
    (printM fuel text s).map Prod.fst = s.1.print fuel text := by
  have hround : ∀ s : BitVec 16 × Noted, (printRoundM text s).map (fun s => (s.1, s.2.1)) =
      some (s.1 + 1, if text s.1.toNat = 0x0A then s.2.1.newline
        else s.2.1.putc (text s.1.toNat)) := by
    intro s
    unfold printRoundM
    split_ifs
    · rfl
    · rw [Option.map_some, putcM_val]
  unfold printM print
  rw [← whileLoop_map (fun s : BitVec 16 × Noted => (s.1, s.2.1)) (fun _ => rfl) hround fuel (0, s),
    Option.map_map, Option.map_map]
  rfl

theorem printHexM_val (fuel : ℕ) (val : BitVec 64) (offset : BitVec 8) (s : Noted) :
    (printHexM fuel val offset s).map Prod.fst = s.1.printHex fuel val offset := by
  unfold printHexM printHex
  split_ifs
  · simp only [Option.bind_eq_bind, Option.map_bind, ← printM_val, Option.bind_map]
    congr 1
    funext s₁
    simp only [Function.comp_apply, Option.map_bind, ← printM_val, Option.bind_map]
  · rfl

/-! ### The states of the console -/

/-- After `video_init` and any calls, also inside a string. -/
inductive Reached (width height : BitVec 16) (vbuf : ℕ → BitVec 32) (font : ℕ → BitVec 8) :
    Noted → Prop
  | init : Reached width height vbuf font (Video.init width height vbuf font, [])
  | clr {s : Noted} (before : Reached width height vbuf font s) :
      Reached width height vbuf font (clrM s)
  | print {s s' : Noted} {text : ℕ → BitVec 8} {i : BitVec 16}
      (before : Reached width height vbuf font s)
      (visits : Visits (fun s : BitVec 16 × Noted => text s.1.toNat != 0) (printRoundM text)
        (0, s) (i, s')) : Reached width height vbuf font s'
  | printHex {s s' : Noted} {fuel : ℕ} {val : BitVec 64} {offset : BitVec 8}
      (before : Reached width height vbuf font s)
      (returns : printHexM fuel val offset s = some s') : Reached width height vbuf font s'

/-- The cursor is on the screen or one column behind it, and nothing was stored outside. -/
structure Inside (width height : BitVec 16) (s : Noted) : Prop where
  scr_width : s.1.scr_width = width
  scr_height : s.1.scr_height = height
  row : s.1.text_row.toNat < height.toNat / 16
  col : s.1.text_col.toNat ≤ width.toNat / 8
  ok : ∀ a ∈ s.2, a.Ok width height

section inside

variable {width height : BitVec 16} {s : Noted}

theorem Inside.newline (h : Inside width height s) (hh : 16 ≤ height.toNat) :
    Inside width height (s.1.newline, s.2) := by
  have hlt := height.isLt
  have hrow := h.row
  have hdiv : (s.1.scr_height / FONT_SIZE_Y).toNat = height.toNat / 16 := by
    rw [h.scr_height, rows_toNat]
  have hnext : (s.1.text_row + 1).toNat = s.1.text_row.toNat + 1 :=
    toNat_succ_of_lt hrow (by omega)
  refine ⟨h.scr_width, h.scr_height, ?_, Nat.zero_le _, h.ok⟩
  unfold Video.newline
  simp only [BitVec.le_def, hdiv, hnext]
  split_ifs with hlast
  · have hzero : (0 : BitVec 16).toNat = 0 := rfl
    omega
  · omega

theorem Inside.note (h : Inside width height s) {a : Access} (ha : a.Ok width height) :
    Inside width height (s.1, s.2 ++ [a]) := by
  refine ⟨h.scr_width, h.scr_height, h.row, h.col, ?_⟩
  refine List.forall_mem_append.mpr ⟨h.ok, ?_⟩
  intro b hb
  obtain rfl := List.mem_singleton.mp hb
  exact ha

theorem Inside.setpixel (h : Inside width height s) {x y : BitVec 16}
    (hx : x.toNat < width.toNat) (hy : y.toNat < height.toNat) (val : BitVec 32) :
    Inside width height (setpixelM s x y val) := by
  have hpos := pos_toNat hx (y := y)
  have hnote := h.note (a := .pixel x y (y.setWidth 32 * width.setWidth 32 + x.setWidth 32))
    ⟨hpos, by rw [hpos]; exact pixel_lt hx hy⟩
  unfold setpixelM
  rw [h.scr_width]
  exact ⟨h.scr_width, h.scr_height, h.row, h.col, hnote.ok⟩

theorem Inside.glyph (h : Inside width height s) (glyph : BitVec 16 → BitVec 8) {x y : BitVec 16}
    (hx : x.toNat + 8 ≤ width.toNat) (hy : y.toNat + 16 ≤ height.toNat) :
    Inside width height (glyphM glyph x y s) ∧ (glyphM glyph x y s).1.text_col = s.1.text_col := by
  have hw := width.isLt
  have hh := height.isLt
  unfold glyphM
  refine rounds_invariant (I := fun t : Noted => Inside width height t ∧
    t.1.text_col = s.1.text_col) ?_ ⟨h, rfl⟩
  intro j hj t ht
  refine rounds_invariant (I := fun t : Noted => Inside width height t ∧
    t.1.text_col = s.1.text_col) ?_ ht
  intro i hi t ⟨ht, hcol⟩
  rw [List.mem_range] at hi hj
  have hxi : (x + BitVec.ofNat 16 i).toNat = x.toNat + i := toNat_add_ofNat (by omega)
  have hyj : (y + BitVec.ofNat 16 j).toNat = y.toNat + j := toNat_add_ofNat (by omega)
  unfold glyphPixelM
  split_ifs
  · exact ⟨ht.setpixel (by omega) (by omega) _, hcol⟩
  · exact ⟨ht.setpixel (by omega) (by omega) _, hcol⟩

theorem Inside.wrap (h : Inside width height s) (hw : 8 ≤ width.toNat) (hh : 16 ≤ height.toNat) :
    ∃ v, (if s.1.scr_width / FONT_SIZE_X ≤ s.1.text_col then s.1.newline else s.1) = v ∧
      Inside width height (v, s.2) ∧ v.text_col.toNat < width.toNat / 8 := by
  have hdiv : (s.1.scr_width / FONT_SIZE_X).toNat = width.toNat / 8 := by
    rw [h.scr_width, columns_toNat]
  simp only [BitVec.le_def, hdiv]
  split_ifs with hfull
  · refine ⟨_, rfl, h.newline hh, ?_⟩
    have hzero : s.1.newline.text_col.toNat = 0 := rfl
    omega
  · exact ⟨_, rfl, h, Nat.lt_of_not_le hfull⟩

theorem Inside.putc (h : Inside width height s) (hw : 8 ≤ width.toNat) (hh : 16 ≤ height.toNat)
    (chr : BitVec 8) : Inside width height (putcM s chr) := by
  have hwidth := width.isLt
  have hheight := height.isLt
  obtain ⟨v, hv, hin, hcol⟩ := h.wrap hw hh
  have hrow : v.text_row.toNat < height.toNat / 16 := hin.row
  have hx := column_x_toNat hcol
  have hy := row_y_toNat hrow
  have hcell := hin.note (a := .cell v.text_col v.text_row (v.text_col * FONT_SIZE_X)
    (v.text_row * FONT_SIZE_Y)) ⟨hx, hy⟩
  obtain ⟨hdrawn, hsame⟩ := hcell.glyph
    (fun fnt_y => s.1.bios_font (chr.toNat * 16 + fnt_y.toNat))
    (x := v.text_col * FONT_SIZE_X) (y := v.text_row * FONT_SIZE_Y) (by omega) (by omega)
  have hnext : (v.text_col + 1).toNat = v.text_col.toNat + 1 :=
    toNat_succ_of_lt hcol (by omega)
  unfold putcM
  rw [hv]
  refine ⟨hdrawn.scr_width, hdrawn.scr_height, hdrawn.row, ?_, hdrawn.ok⟩
  simp only [hsame, hnext]
  omega

theorem Inside.clr (h : Inside width height s) : Inside width height (clrM s) := by
  have hbound : (s.1.scr_width.setWidth 32 * s.1.scr_height.setWidth 32 : BitVec 32).toNat =
      width.toNat * height.toNat := by
    rw [h.scr_width, h.scr_height, toNat_mul_setWidth (by omega)]
  unfold clrM
  refine rounds_invariant ?_ h
  intro i hi t ht
  rw [List.mem_range] at hi
  have hnote := ht.note (a := .clear (BitVec.ofNat 32 i)) (by
    refine Nat.lt_of_le_of_lt ?_ (hbound ▸ hi)
    rw [BitVec.toNat_ofNat]
    exact Nat.mod_le _ _)
  exact ⟨ht.scr_width, ht.scr_height, ht.row, ht.col, hnote.ok⟩

theorem Inside.round (h : Inside width height s) (hw : 8 ≤ width.toNat) (hh : 16 ≤ height.toNat)
    {text : ℕ → BitVec 8} {i : BitVec 16} {t : BitVec 16 × Noted}
    (ht : printRoundM text (i, s) = some t) : Inside width height t.2 := by
  unfold printRoundM at ht
  obtain rfl := Option.some.inj ht
  split_ifs with hline
  · exact h.newline hh
  · exact h.putc hw hh _

theorem Inside.visits (h : Inside width height s) (hw : 8 ≤ width.toNat) (hh : 16 ≤ height.toNat)
    {text : ℕ → BitVec 8} {t : BitVec 16 × Noted}
    (hv : Visits (fun s : BitVec 16 × Noted => text s.1.toNat != 0) (printRoundM text) (0, s) t) :
    Inside width height t.2 :=
  hv.invariant (I := fun t : BitVec 16 × Noted => Inside width height t.2)
    (fun _ _ ht _ hf => ht.round hw hh hf) h

theorem Inside.print (h : Inside width height s) (hw : 8 ≤ width.toNat) (hh : 16 ≤ height.toNat)
    {fuel : ℕ} {text : ℕ → BitVec 8} {s' : Noted} (hp : printM fuel text s = some s') :
    Inside width height s' := by
  obtain ⟨t, ht, rfl⟩ := Option.map_eq_some_iff.mp hp
  exact h.visits hw hh (visits_of_whileLoop ht)

theorem Inside.printHex (h : Inside width height s) (hw : 8 ≤ width.toNat)
    (hh : 16 ≤ height.toNat) {fuel : ℕ} {val : BitVec 64} {offset : BitVec 8} {s' : Noted}
    (hp : printHexM fuel val offset s = some s') : Inside width height s' := by
  unfold printHexM at hp
  split_ifs at hp
  · obtain ⟨s₁, h₁, hp⟩ := Option.bind_eq_some_iff.mp hp
    obtain ⟨s₂, h₂, hp⟩ := Option.bind_eq_some_iff.mp hp
    exact ((h.print hw hh h₁).print hw hh h₂).print hw hh hp
  · obtain rfl := Option.some.inj hp
    exact h

end inside

variable {width height : BitVec 16} {vbuf : ℕ → BitVec 32} {font : ℕ → BitVec 8}

theorem Reached.inside {s : Noted} (h : Reached width height vbuf font s)
    (hw : 8 ≤ width.toNat) (hh : 16 ≤ height.toNat) : Inside width height s := by
  induction h with
  | init =>
      have hzero : (0 : BitVec 16).toNat = 0 := rfl
      refine ⟨rfl, rfl, ?_, Nat.zero_le _, List.forall_mem_nil _⟩
      rw [Video.init, hzero]
      omega
  | clr before ih => exact ih.clr
  | print before visits ih => exact ih.visits hw hh visits
  | printHex before returns ih => exact ih.printHex hw hh returns

/-- The cursor and every store of the driver, in every state of the console. -/
theorem reached_bounds {s : Noted} (hw : 8 ≤ width.toNat) (hh : 16 ≤ height.toNat)
    (h : Reached width height vbuf font s) :
    s.1.text_row.toNat < height.toNat / 16 ∧ s.1.text_col.toNat ≤ width.toNat / 8 ∧
      ∀ a ∈ s.2, a.Ok width height :=
  ⟨(h.inside hw hh).row, (h.inside hw hh).col, (h.inside hw hh).ok⟩

/-- One letter. -/
def letterText : ℕ → BitVec 8 := fun i => [0x41].getD i 0

/-- The smallest screen, after its one character: the column stands behind the last. -/
theorem reached_bounds_char :
    ∃ s : Noted, Reached 8 16 (fun _ => 0) (fun _ => 0) s ∧ s.1.text_col = 1 ∧
      (s.1.text_row.toNat < (16 : BitVec 16).toNat / 16 ∧
        s.1.text_col.toNat ≤ (8 : BitVec 16).toNat / 8 ∧ ∀ a ∈ s.2, a.Ok 8 16) := by
  have hvisits : Visits (fun s : BitVec 16 × Noted => letterText s.1.toNat != 0)
      (printRoundM letterText) (0, (Video.init 8 16 (fun _ => 0) (fun _ => 0), []))
      (1, putcM (Video.init 8 16 (fun _ => 0) (fun _ => 0), []) 0x41) :=
    .round .start (by decide) rfl
  have hreached := Reached.print .init hvisits
  exact ⟨_, hreached, by rfl, reached_bounds (by decide) (by decide) hreached⟩

end Ziemniak.Stage2.Video
