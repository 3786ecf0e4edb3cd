import Mathlib.Tactic.IntervalCases
import Ziemniak.BareMetal.Loop
import Ziemniak.BareMetal.Terminal
import Ziemniak.BareMetal.Words

/-! # The text output

`video.c` draws characters into the frame buffer, pixel by pixel, at a cursor of its own.  The
screen it produces is that of an abstract terminal (`Shows`): every function of the driver has
its counterpart there, and `video_shows` follows any sequence of calls. -/

namespace Ziemniak.Stage2

open BareMetal

/-! ### The driver -/

def FONT_SIZE_X : BitVec 16 := 8
def FONT_SIZE_Y : BitVec 16 := 16

/-- The static variables; `vid_buf` and `bios_font` are the arrays they point to. -/
structure Video where
  scr_width : BitVec 16
  scr_height : BitVec 16
  vid_buf : ℕ → BitVec 32
  bios_font : ℕ → BitVec 8
  text_col : BitVec 16
  text_row : BitVec 16

namespace Video

def setpixel (v : Video) (x y : BitVec 16) (val : BitVec 32) : Video :=
  let pos : BitVec 32 := y.setWidth 32 * v.scr_width.setWidth 32 + x.setWidth 32
  { v with vid_buf := Function.update v.vid_buf pos.toNat val }

def putpixel (v : Video) (x y : BitVec 16) : Video := v.setpixel x y 0xFFFFFFFF

def clearpixel (v : Video) (x y : BitVec 16) : Video := v.setpixel x y 0x00000000

def newline (v : Video) : Video :=
  let text_row := v.text_row + 1
  { v with
    text_col := 0
    text_row := if v.scr_height / FONT_SIZE_Y ≤ text_row then 0 else text_row }

/-- The inner body of `putc`. -/
def glyphPixel (glyph : BitVec 16 → BitVec 8) (x y fnt_y fnt_x : BitVec 16) (v : Video) : Video :=
  if glyph fnt_y &&& ((128 : BitVec 8) >>> fnt_x.toNat) ≠ 0 then v.putpixel (x + fnt_x) (y + fnt_y)
  else v.clearpixel (x + fnt_x) (y + fnt_y)

def putc (v : Video) (chr : BitVec 8) : Video :=
  let glyph := fun fnt_y : BitVec 16 => v.bios_font (chr.toNat * 16 + fnt_y.toNat)
  let v := if v.scr_width / FONT_SIZE_X ≤ v.text_col then v.newline else v
  let x := v.text_col * FONT_SIZE_X
  let y := v.text_row * FONT_SIZE_Y
  let v := rounds (fun fnt_y v => rounds (glyphPixel glyph x y fnt_y) (List.range 8) v)
    (List.range 16) v
  { v with text_col := v.text_col + 1 }

def init (width height : BitVec 16) (vbuf : ℕ → BitVec 32) (font : ℕ → BitVec 8) : Video where
  scr_width := width
  scr_height := height
  vid_buf := vbuf
  bios_font := font
  text_col := 0
  text_row := 0

def clr (v : Video) : Video :=
  let bound : BitVec 32 := v.scr_width.setWidth 32 * v.scr_height.setWidth 32
  rounds (fun (i : BitVec 32) v => { v with vid_buf := Function.update v.vid_buf i.toNat 0x00 })
    (List.range bound.toNat) v

/-- `text` is what lies behind the pointer. -/
def print (fuel : ℕ) (text : ℕ → BitVec 8) (v : Video) : Option Video :=
  (whileLoop (fun s : BitVec 16 × Video => text s.1.toNat != 0)
    (fun s => some (s.1 + 1,
      if text s.1.toNat = 0x0A then s.2.newline else s.2.putc (text s.1.toNat)))
    fuel (0, v)).map Prod.snd

/-- The buffer of `video_convert_hex`. -/
def convertHex (val : BitVec 64) (i : ℕ) : BitVec 8 :=
  let temp : BitVec 8 := ((val >>> (4 * (15 - i))) &&& 0x0F).setWidth 8
  if i < 16 then (if temp < 0x0A then temp + 0x30 else temp - 10 + 0x41) else 0

def printHex (fuel : ℕ) (val : BitVec 64) (offset : BitVec 8) (v : Video) : Option Video :=
  if offset < 16 then do
    let v ← print fuel (fun i => [0x30, 0x78].getD i 0) v
    let v ← print fuel (fun i => convertHex val (offset.toNat + i)) v
    print fuel (fun i => [0x20].getD i 0) v
  else some v

/-! ### Drawing -/

theorem columns_toNat (width : BitVec 16) : (width / FONT_SIZE_X).toNat = width.toNat / 8 :=
  BitVec.toNat_udiv

theorem rows_toNat (height : BitVec 16) : (height / FONT_SIZE_Y).toNat = height.toNat / 16 :=
  BitVec.toNat_udiv

theorem column_x_toNat {width col : BitVec 16} (h : col.toNat < width.toNat / 8) :
    (col * FONT_SIZE_X).toNat = col.toNat * 8 := by
  have hmul : (col * FONT_SIZE_X).toNat = col.toNat * 8 % 2 ^ 16 := BitVec.toNat_mul ..
  have hwidth := width.isLt
  rw [hmul, Nat.mod_eq_of_lt (by omega)]

theorem row_y_toNat {height row : BitVec 16} (h : row.toNat < height.toNat / 16) :
    (row * FONT_SIZE_Y).toNat = row.toNat * 16 := by
  have hmul : (row * FONT_SIZE_Y).toNat = row.toNat * 16 % 2 ^ 16 := BitVec.toNat_mul ..
  have hheight := height.isLt
  rw [hmul, Nat.mod_eq_of_lt (by omega)]

/-- Pixels of rows of `w` pixels are distinct words of the buffer. -/
theorem pixel_inj {w x y x' y' : ℕ} (hx : x < w) (hx' : x' < w) :
    y * w + x = y' * w + x' ↔ y = y' ∧ x = x' := by
  constructor
  · intro h
    have hmod := congrArg (· % w) h
    have hdiv := congrArg (· / w) h
    have hpos : 0 < w := by omega
    simp only [Nat.mul_comm y, Nat.mul_comm y', Nat.mul_add_mod, Nat.mod_eq_of_lt hx,
      Nat.mod_eq_of_lt hx', Nat.mul_add_div hpos, Nat.div_eq_of_lt hx, Nat.div_eq_of_lt hx',
      Nat.add_zero] at hmod hdiv
    exact ⟨hdiv, hmod⟩
  · rintro ⟨rfl, rfl⟩
    rfl

theorem pixel_lt {w h x y : ℕ} (hx : x < w) (hy : y < h) : y * w + x < w * h := by
  have hrow : (y + 1) * w ≤ h * w := Nat.mul_le_mul_right _ hy
  rw [Nat.succ_mul] at hrow
  rw [Nat.mul_comm w]
  omega

/-- The index of a pixel fits in 32 bits, whatever its row. -/
theorem pos_toNat {width x y : BitVec 16} (hx : x.toNat < width.toNat) :
    (y.setWidth 32 * width.setWidth 32 + x.setWidth 32 : BitVec 32).toNat =
      y.toNat * width.toNat + x.toNat := by
  have hy := y.isLt
  have hw := width.isLt
  have hmul : y.toNat * width.toNat ≤ 65535 * 65535 := Nat.mul_le_mul (by omega) (by omega)
  rw [BitVec.toNat_add, toNat_mul_setWidth (by omega), BitVec.toNat_setWidth_of_le (by omega),
    Nat.mod_eq_of_lt (by omega)]

/-- `v'` is `v` after drawing the pixels `P` with the colours `val`. -/
structure Draws (v v' : Video) (P : ℕ → ℕ → Prop) (val : ℕ → ℕ → BitVec 32) : Prop where
  same : v' = { v with vid_buf := v'.vid_buf }
  drawn : ∀ x y, x < v.scr_width.toNat → P x y → v'.vid_buf (y * v.scr_width.toNat + x) = val x y
  left : ∀ x y, x < v.scr_width.toNat → ¬ P x y →
    v'.vid_buf (y * v.scr_width.toNat + x) = v.vid_buf (y * v.scr_width.toNat + x)

theorem setpixel_draws (v : Video) {x y : BitVec 16} (hx : x.toNat < v.scr_width.toNat)
    (val : BitVec 32) :
    Draws v (v.setpixel x y val) (fun x' y' => x' = x.toNat ∧ y' = y.toNat) (fun _ _ => val) := by
  have hpos := pos_toNat hx (y := y)
  have hbuf : (v.setpixel x y val).vid_buf =
      Function.update v.vid_buf (y.toNat * v.scr_width.toNat + x.toNat) val := by
    unfold setpixel
    rw [← hpos]
  refine ⟨rfl, ?_, ?_⟩
  · rintro x' y' - ⟨rfl, rfl⟩
    rw [hbuf, Function.update_self]
  · intro x' y' hx' hP
    have hne : y' * v.scr_width.toNat + x' ≠ y.toNat * v.scr_width.toNat + x.toNat := by
      intro h
      obtain ⟨hy, hx⟩ := (pixel_inj hx' hx).mp h
      exact hP ⟨hx, hy⟩
    rw [hbuf, Function.update_of_ne hne]

theorem Draws.scr_width {v v' : Video} {P : ℕ → ℕ → Prop} {val : ℕ → ℕ → BitVec 32}
    (h : Draws v v' P val) : v'.scr_width = v.scr_width := by
  rw [h.same]

theorem Draws.refl (v : Video) (val : ℕ → ℕ → BitVec 32) : Draws v v (fun _ _ => False) val :=
  ⟨rfl, fun _ _ _ h => h.elim, fun _ _ _ _ => rfl⟩

theorem Draws.trans {v v₁ v₂ : Video} {P Q : ℕ → ℕ → Prop} {val : ℕ → ℕ → BitVec 32}
    (h : Draws v v₁ P val) (h' : Draws v₁ v₂ Q val) :
    Draws v v₂ (fun x y => P x y ∨ Q x y) val := by
  have hw := h.scr_width
  refine ⟨?_, ?_, ?_⟩
  · have hsame := h'.same
    rw [h.same] at hsame
    exact hsame
  · intro x y hx hPQ
    by_cases hQ : Q x y
    · rw [← hw]
      exact h'.drawn x y (by rw [hw]; exact hx) hQ
    · have hleft := h'.left x y (by rw [hw]; exact hx) hQ
      rw [hw] at hleft
      rw [hleft]
      exact h.drawn x y hx (hPQ.resolve_right hQ)
  · intro x y hx hPQ
    have hleft := h'.left x y (by rw [hw]; exact hx) (fun hQ => hPQ (Or.inr hQ))
    rw [hw] at hleft
    rw [hleft]
    exact h.left x y hx (fun hP => hPQ (Or.inl hP))

theorem Draws.congr {v v' : Video} {P Q : ℕ → ℕ → Prop} {val val' : ℕ → ℕ → BitVec 32}
    (h : Draws v v' P val) (hP : ∀ x y, P x y ↔ Q x y) (hval : ∀ x y, Q x y → val x y = val' x y) :
    Draws v v' Q val' :=
  ⟨h.same, fun x y hx hQ => (h.drawn x y hx ((hP x y).mpr hQ)).trans (hval x y hQ),
    fun x y hx hQ => h.left x y hx (fun hp => hQ ((hP x y).mp hp))⟩

theorem Draws.rounds {v : Video} {f : BitVec 16 → Video → Video} {n : ℕ}
    {P : ℕ → ℕ → ℕ → Prop} {val : ℕ → ℕ → BitVec 32}
    (hf : ∀ k < n, ∀ v' : Video, v'.scr_width = v.scr_width →
      Draws v' (f (BitVec.ofNat 16 k) v') (P k) val) :
    Draws v (rounds f (List.range n) v) (fun x y => ∃ k < n, P k x y) val := by
  induction n with
  | zero =>
      refine (Draws.refl v val).congr ?_ (fun _ _ _ => rfl)
      exact fun x y => ⟨False.elim, fun ⟨k, hk, _⟩ => absurd hk (Nat.not_lt_zero k)⟩
  | succ n ih =>
      have hrest := ih (fun k hk => hf k (by omega))
      have hlast := hf n (by omega) _ hrest.scr_width
      rw [rounds_succ]
      refine (hrest.trans hlast).congr ?_ (fun _ _ _ => rfl)
      intro x y
      constructor
      · rintro (⟨k, hk, hP⟩ | hP)
        · exact ⟨k, by omega, hP⟩
        · exact ⟨n, by omega, hP⟩
      · rintro ⟨k, hk, hP⟩
        rcases Nat.lt_succ_iff_lt_or_eq.mp hk with hlt | rfl
        · exact Or.inl ⟨k, hlt, hP⟩
        · exact Or.inr hP

/-- The colour of a pixel of a cell at `(x, y)`. -/
def cellColour (glyph : BitVec 16 → BitVec 8) (x y x' y' : ℕ) : BitVec 32 :=
  if glyph (BitVec.ofNat 16 (y' - y)) &&& ((128 : BitVec 8) >>> (x' - x)) ≠ 0 then 0xFFFFFFFF else 0

section cell

variable (glyph : BitVec 16 → BitVec 8) {x y : BitVec 16} {v : Video}

theorem glyphPixel_draws (hx : x.toNat + 8 ≤ v.scr_width.toNat) (hy : y.toNat + 16 < 2 ^ 16)
    {i j : ℕ} (hi : i < 8) (hj : j < 16) :
    Draws v (glyphPixel glyph x y (BitVec.ofNat 16 j) (BitVec.ofNat 16 i) v)
      (fun x' y' => x' = x.toNat + i ∧ y' = y.toNat + j) (cellColour glyph x.toNat y.toNat) := by
  have hw := v.scr_width.isLt
  have hxi : (x + BitVec.ofNat 16 i).toNat = x.toNat + i := toNat_add_ofNat (by omega)
  have hyj : (y + BitVec.ofNat 16 j).toNat = y.toNat + j := toNat_add_ofNat (by omega)
  have hnat : (BitVec.ofNat 16 i).toNat = i := Nat.mod_eq_of_lt (by omega)
  have hset : ∀ val, (cellColour glyph x.toNat y.toNat (x.toNat + i) (y.toNat + j) = val) →
      Draws v (v.setpixel (x + BitVec.ofNat 16 i) (y + BitVec.ofNat 16 j) val)
        (fun x' y' => x' = x.toNat + i ∧ y' = y.toNat + j)
        (cellColour glyph x.toNat y.toNat) := by
    intro val hval
    apply (setpixel_draws v (by omega) val).congr
    · intro x' y'
      rw [hxi, hyj]
    · rintro x' y' ⟨rfl, rfl⟩
      exact hval.symm
  unfold cellColour at hset
  rw [Nat.add_sub_cancel_left, Nat.add_sub_cancel_left] at hset
  unfold glyphPixel putpixel clearpixel
  rw [hnat]
  by_cases hbit : glyph (BitVec.ofNat 16 j) &&& ((128 : BitVec 8) >>> i) ≠ 0
  · rw [if_pos hbit]
    exact hset _ (if_pos hbit)
  · rw [if_neg hbit]
    exact hset _ (if_neg hbit)

theorem glyphRow_draws (hx : x.toNat + 8 ≤ v.scr_width.toNat) (hy : y.toNat + 16 < 2 ^ 16)
    {j : ℕ} (hj : j < 16) :
    Draws v (rounds (glyphPixel glyph x y (BitVec.ofNat 16 j)) (List.range 8) v)
      (fun x' y' => (x.toNat ≤ x' ∧ x' < x.toNat + 8) ∧ y' = y.toNat + j)
      (cellColour glyph x.toNat y.toNat) := by
  refine (Draws.rounds (P := fun i x' y' => x' = x.toNat + i ∧ y' = y.toNat + j) ?_).congr
    ?_ (fun _ _ _ => rfl)
  · intro i hi v' hw
    exact glyphPixel_draws glyph (by rw [hw]; exact hx) hy hi hj
  · intro x' y'
    constructor
    · rintro ⟨i, hi, rfl, hrow⟩
      exact ⟨by omega, hrow⟩
    · rintro ⟨hcol, hrow⟩
      exact ⟨x' - x.toNat, by omega, by omega, hrow⟩

theorem glyph_draws (hx : x.toNat + 8 ≤ v.scr_width.toNat) (hy : y.toNat + 16 < 2 ^ 16) :
    Draws v (rounds (fun fnt_y v => rounds (glyphPixel glyph x y fnt_y) (List.range 8) v)
        (List.range 16) v)
      (fun x' y' => (x.toNat ≤ x' ∧ x' < x.toNat + 8) ∧ y.toNat ≤ y' ∧ y' < y.toNat + 16)
      (cellColour glyph x.toNat y.toNat) := by
  refine (Draws.rounds (P := fun j x' y' => (x.toNat ≤ x' ∧ x' < x.toNat + 8) ∧
    y' = y.toNat + j) ?_).congr ?_ (fun _ _ _ => rfl)
  · intro j hj v' hw
    exact glyphRow_draws glyph (by rw [hw]; exact hx) hy hj
  · intro x' y'
    constructor
    · rintro ⟨j, hj, hcol, rfl⟩
      exact ⟨hcol, by omega⟩
    · rintro ⟨hcol, hrow⟩
      exact ⟨y' - y.toNat, by omega, hcol, by omega⟩

end cell

/-! ### The terminal on the screen -/

/-- The characters that fit on the screen. -/
def screen (width height : BitVec 16) (hw : 8 ≤ width.toNat) (hh : 16 ≤ height.toNat) : Grid where
  cols := width.toNat / 8
  rows := height.toNat / 16
  cols_pos := by omega
  rows_pos := by omega

/-- Pixel `(x, y)` of a glyph. -/
def fontGlyph (font : ℕ → BitVec 8) (c : BitVec 8) (x y : ℕ) : Bool :=
  font (c.toNat * 16 + y) &&& ((128 : BitVec 8) >>> x) != 0

/-- The driver is at the cursor of the terminal, and the frame buffer is its picture. -/
structure Shows {width height : BitVec 16} {hw : 8 ≤ width.toNat} {hh : 16 ≤ height.toNat}
    (font : ℕ → BitVec 8) (v : Video) (t : Terminal (screen width height hw hh) (BitVec 8)) :
    Prop where
  scr_width : v.scr_width = width
  scr_height : v.scr_height = height
  bios_font : v.bios_font = font
  col : v.text_col.toNat = t.col
  row : v.text_row.toNat = t.row
  pixels : ∀ x y, x < width.toNat → y < height.toNat → v.vid_buf (y * width.toNat + x) =
    if t.render 8 16 (fontGlyph font) x y then 0xFFFFFFFF else 0x00000000

section shows

variable {width height : BitVec 16} {hw : 8 ≤ width.toNat} {hh : 16 ≤ height.toNat}
  {font : ℕ → BitVec 8} {v : Video} {t : Terminal (screen width height hw hh) (BitVec 8)}

theorem Shows.newline (h : Shows font v t) : Shows font v.newline t.newline := by
  have hh16 := height.isLt
  have hrow : t.row < height.toNat / 16 := t.row_lt
  have hnext : (v.text_row + 1).toNat = t.row + 1 := by
    have hadd := toNat_add_ofNat (x := v.text_row) (n := 1) (by rw [h.row]; omega)
    rw [h.row] at hadd
    exact hadd
  have hdiv : (v.scr_height / FONT_SIZE_Y).toNat = height.toNat / 16 := by
    rw [h.scr_height, rows_toNat]
  refine ⟨h.scr_width, h.scr_height, h.bios_font, rfl, ?_, h.pixels⟩
  have hmod : t.newline.row = (t.row + 1) % (height.toNat / 16) := rfl
  unfold Video.newline
  simp only [BitVec.le_def, hdiv, hnext, hmod]
  split_ifs with hlast
  · have heq : t.row + 1 = height.toNat / 16 := by omega
    rw [heq, Nat.mod_self]
    rfl
  · rw [hnext, Nat.mod_eq_of_lt (by omega)]

theorem Shows.wrap (h : Shows font v t) :
    Shows font (if v.scr_width / FONT_SIZE_X ≤ v.text_col then v.newline else v) t.wrap := by
  have hcol : t.col ≤ width.toNat / 8 := t.col_le
  have hdiv : (v.scr_width / FONT_SIZE_X).toNat = width.toNat / 8 := by
    rw [h.scr_width, columns_toNat]
  have hiff : v.scr_width / FONT_SIZE_X ≤ v.text_col ↔
      t.col = (screen width height hw hh).cols := by
    have hcols : (screen width height hw hh).cols = width.toNat / 8 := rfl
    rw [BitVec.le_def, hdiv, h.col, hcols]
    omega
  unfold Terminal.wrap
  by_cases hlast : t.col = (screen width height hw hh).cols
  · rw [if_pos (hiff.mpr hlast), if_pos hlast]
    exact h.newline
  · rw [if_neg (fun hle => hlast (hiff.mp hle)), if_neg hlast]
    exact h

/-- The picture after a glyph was drawn in the cell at the cursor. -/
theorem Shows.pixels_glyph (h : Shows font v t.wrap) {c : BitVec 8} {v' : Video}
    (hdraws : Draws v v' (fun x y => (t.wrap.col * 8 ≤ x ∧ x < t.wrap.col * 8 + 8) ∧
        t.wrap.row * 16 ≤ y ∧ y < t.wrap.row * 16 + 16)
      (cellColour (fun fnt_y => font (c.toNat * 16 + fnt_y.toNat)) (t.wrap.col * 8)
        (t.wrap.row * 16)))
    {x y : ℕ} (hx : x < width.toNat) (hy : y < height.toNat) :
    v'.vid_buf (y * width.toNat + x) =
      if (t.put c).render 8 16 (fontGlyph font) x y then 0xFFFFFFFF else 0x00000000 := by
  have hdrawn := hdraws.drawn x y
  have hleft := hdraws.left x y
  rw [h.scr_width] at hdrawn hleft
  simp only [t.render_put 8 16 (fontGlyph font) c]
  by_cases hcell : y / 16 = t.wrap.row ∧ x / 8 = t.wrap.col
  · rw [if_pos hcell, hdrawn hx (by omega)]
    have hyoff : y - t.wrap.row * 16 = y % 16 := by omega
    have hxoff : x - t.wrap.col * 8 = x % 8 := by omega
    have hnat : (BitVec.ofNat 16 (y % 16)).toNat = y % 16 := Nat.mod_eq_of_lt (by omega)
    unfold cellColour fontGlyph
    rw [hyoff, hxoff]
    simp only [hnat, bne_iff_ne]
  · rw [if_neg hcell, hleft hx (by omega), h.pixels x y hx hy]
    unfold Terminal.render
    rw [Terminal.wrap_cells]

theorem Shows.putc (h : Shows font v t) (c : BitVec 8) : Shows font (v.putc c) (t.put c) := by
  have hwrap := h.wrap
  have hcol : t.wrap.col < width.toNat / 8 := t.wrap_col_lt
  have hrow : t.wrap.row < height.toNat / 16 := t.wrap.row_lt
  have hw16 := width.isLt
  have hh16 := height.isLt
  unfold Video.putc
  rw [h.bios_font]
  generalize (if v.scr_width / FONT_SIZE_X ≤ v.text_col then v.newline else v) = v₁ at hwrap ⊢
  have hx : (v₁.text_col * FONT_SIZE_X).toNat = t.wrap.col * 8 := by
    have hlt : v₁.text_col.toNat < width.toNat / 8 := by rw [hwrap.col]; exact hcol
    rw [column_x_toNat hlt, hwrap.col]
  have hy : (v₁.text_row * FONT_SIZE_Y).toNat = t.wrap.row * 16 := by
    have hlt : v₁.text_row.toNat < height.toNat / 16 := by rw [hwrap.row]; exact hrow
    rw [row_y_toNat hlt, hwrap.row]
  have hdraws := glyph_draws (fun fnt_y => font (c.toNat * 16 + fnt_y.toNat))
    (x := v₁.text_col * FONT_SIZE_X) (y := v₁.text_row * FONT_SIZE_Y) (v := v₁)
    (by rw [hx, hwrap.scr_width]; omega) (by rw [hy]; omega)
  simp only
  generalize rounds (fun fnt_y v => rounds (glyphPixel (fun fnt_y => font (c.toNat * 16 +
    fnt_y.toNat)) (v₁.text_col * FONT_SIZE_X) (v₁.text_row * FONT_SIZE_Y) fnt_y) (List.range 8) v)
    (List.range 16) v₁ = v₂ at hdraws ⊢
  have hsame := hdraws.same
  have hcol₂ : v₂.text_col = v₁.text_col := by rw [hsame]
  have hrow₂ : v₂.text_row = v₁.text_row := by rw [hsame]
  refine ⟨?_, ?_, ?_, ?_, ?_, ?_⟩
  · rw [hsame]
    exact hwrap.scr_width
  · rw [hsame]
    exact hwrap.scr_height
  · rw [hsame]
    exact hwrap.bios_font
  · have hadd := toNat_add_ofNat (x := v₁.text_col) (n := 1) (by rw [hwrap.col]; omega)
    rw [hwrap.col] at hadd
    simp only [hcol₂]
    exact hadd
  · simp only [hrow₂]
    exact hwrap.row
  · intro x y hx' hy'
    rw [hx, hy] at hdraws
    exact hwrap.pixels_glyph hdraws hx' hy'

end shows

theorem clr_fills (v : Video) {n : ℕ} (hn : n ≤ 2 ^ 32) :
    rounds (fun (i : BitVec 32) v => { v with vid_buf := Function.update v.vid_buf i.toNat 0x00 })
      (List.range n) v = { v with vid_buf := fun p => if p < n then 0x00 else v.vid_buf p } := by
  have hbuf := rounds_map (f := fun (i : BitVec 32) a => Function.update a i.toNat 0x00)
    (g := fun i v => { v with vid_buf := Function.update v.vid_buf i.toNat 0x00 })
    (fun a => { v with vid_buf := a }) (fun _ _ => rfl) (List.range n) v.vid_buf
  refine hbuf.symm.trans ?_
  simp only [mk.injEq, true_and, and_true]
  funext p
  exact rounds_update_index hn v.vid_buf p

/-- Clearing the screen shows an empty terminal, whatever the frame buffer held. -/
theorem clr_shows {width height : BitVec 16} (hw : 8 ≤ width.toNat) (hh : 16 ≤ height.toNat)
    (vbuf : ℕ → BitVec 32) (font : ℕ → BitVec 8) : Shows font (init width height vbuf font).clr
      (Terminal.empty (screen width height hw hh) (BitVec 8)) := by
  have hbound : (width.setWidth 32 * height.setWidth 32 : BitVec 32).toNat =
      width.toNat * height.toNat := toNat_mul_setWidth (by omega) _ _
  have hclr : (init width height vbuf font).clr = { init width height vbuf font with
      vid_buf := fun p => if p < width.toNat * height.toNat then 0x00 else vbuf p } := by
    unfold clr
    simp only
    rw [clr_fills _ (by omega)]
    simp only [init, hbound]
  rw [hclr]
  refine ⟨rfl, rfl, rfl, rfl, rfl, ?_⟩
  intro x y hx hy
  rw [Terminal.render_empty]
  exact if_pos (pixel_lt hx hy)

/-! ### Texts -/

/-- A string of at most 65535 bytes: memory from its first byte on, up to the first zero. -/
structure Text where
  mem : ℕ → BitVec 8
  len : ℕ
  ends : mem len = 0
  nonzero : ∀ i < len, mem i ≠ 0
  short : len ≤ 65535

def Text.bytes (text : Text) : List (BitVec 8) := (List.range text.len).map text.mem

section prints

variable {width height : BitVec 16} {hw : 8 ≤ width.toNat} {hh : 16 ≤ height.toNat}
  {font : ℕ → BitVec 8} {v : Video} {t : Terminal (screen width height hw hh) (BitVec 8)}

theorem Shows.feedAll (h : Shows font v t) (bytes : List (BitVec 8)) :
    Shows font (bytes.foldl (fun v c => if c = 0x0A then v.newline else v.putc c) v)
      (t.feedAll 0x0A bytes) := by
  induction bytes generalizing v t with
  | nil => exact h
  | cons c bytes ih =>
      apply ih
      show Shows font (if c = 0x0A then v.newline else v.putc c) (t.feed 0x0A c)
      unfold Terminal.feed
      split_ifs with hnl
      · exact h.newline
      · exact h.putc c

/-- A string is printed byte by byte. -/
theorem Shows.print (h : Shows font v t) (text : Text) {fuel : ℕ} (hfuel : 65535 ≤ fuel) :
    ∃ v', Video.print fuel text.mem v = some v' ∧ Shows font v' (t.feedAll 0x0A text.bytes) := by
  have hshort := text.short
  have hscan := whileLoop_scan (w := 16) (a := text.mem) (g := fun c => c != 0)
    (f := fun v c => if c = 0x0A then v.newline else v.putc c) (by omega) (by rw [text.ends]; rfl)
    (fun i hi => bne_iff_ne.mpr (text.nonzero i hi)) v (text.short.trans hfuel)
  refine ⟨_, ?_, h.feedAll text.bytes⟩
  unfold Video.print
  rw [hscan]
  rfl

end prints

/-- An upper-case digit. -/
def hexChar (d : ℕ) : BitVec 8 := BitVec.ofNat 8 (if d < 10 then 48 + d else 55 + d)

/-- The sixteen digits of a number, the highest first. -/
def hexDigits (val : BitVec 64) : List (BitVec 8) :=
  (List.range 16).map (fun i => hexChar (val.toNat / 16 ^ (15 - i) % 16))

theorem hexChar_ne_zero {d : ℕ} (hd : d < 16) : hexChar d ≠ 0 := by
  interval_cases d <;> decide

theorem nibble_eq (val : BitVec 64) (i : ℕ) : ((val >>> (4 * (15 - i))) &&& 0x0F).setWidth 8 =
    BitVec.ofNat 8 (val.toNat / 16 ^ (15 - i) % 16) := by
  have hpow : (2 : ℕ) ^ (4 * (15 - i)) = 16 ^ (15 - i) := by rw [Nat.pow_mul]
  have hbits : ((val >>> (4 * (15 - i))) &&& 0x0F).toNat = val.toNat / 2 ^ (4 * (15 - i)) % 2 ^ 4 :=
    toNat_shift_lowMask val (4 * (15 - i)) 4 (by norm_num)
  apply BitVec.eq_of_toNat_eq
  rw [BitVec.toNat_setWidth, hbits, hpow, BitVec.toNat_ofNat]
  rfl

theorem convertHex_eq (val : BitVec 64) {i : ℕ} (hi : i < 16) :
    convertHex val i = hexChar (val.toNat / 16 ^ (15 - i) % 16) := by
  have hd : val.toNat / 16 ^ (15 - i) % 16 < 16 := Nat.mod_lt _ (by norm_num)
  unfold convertHex
  rw [if_pos hi, nibble_eq]
  generalize val.toNat / 16 ^ (15 - i) % 16 = d at hd
  interval_cases d <;> rfl

/-- The digits that are left after `offset` of them. -/
def hexText (val : BitVec 64) (offset : BitVec 8) (h : offset < 16) : Text where
  mem i := convertHex val (offset.toNat + i)
  len := 16 - offset.toNat
  ends := by
    have hlt : offset.toNat < 16 := h
    have hsum : offset.toNat + (16 - offset.toNat) = 16 := by omega
    rw [hsum]
    rfl
  nonzero i hi := by
    rw [convertHex_eq val (by omega)]
    exact hexChar_ne_zero (Nat.mod_lt _ (by norm_num))
  short := by omega

theorem hexText_bytes (val : BitVec 64) (offset : BitVec 8) (h : offset < 16) :
    (hexText val offset h).bytes = (hexDigits val).drop offset.toNat := by
  have hlt : offset.toNat < 16 := h
  apply List.ext_getElem
  · simp [Text.bytes, hexText, hexDigits]
  · intro i hi _
    have hlen : i < 16 - offset.toNat := by simpa [Text.bytes, hexText] using hi
    simp only [Text.bytes, hexText, hexDigits, List.getElem_map, List.getElem_range,
      List.getElem_drop]
    exact convertHex_eq val (by omega)

/-- What `video_print_hex` prints. -/
def hexBytes (val : BitVec 64) (offset : BitVec 8) : List (BitVec 8) :=
  if offset < 16 then [0x30, 0x78] ++ (hexDigits val).drop offset.toNat ++ [0x20] else []

def prefixText : Text where
  mem i := [0x30, 0x78].getD i 0
  len := 2
  ends := rfl
  nonzero := by decide
  short := by decide

def spaceText : Text where
  mem i := [0x20].getD i 0
  len := 1
  ends := rfl
  nonzero := by decide
  short := by decide

/-! ### Sequences of calls -/

inductive Call
  | print (text : Text)
  | printHex (val : BitVec 64) (offset : BitVec 8)

def Call.run (fuel : ℕ) : Call → Video → Option Video
  | .print text, v => Video.print fuel text.mem v
  | .printHex val offset, v => Video.printHex fuel val offset v

/-- The bytes a call sends to the terminal. -/
def Call.bytes : Call → List (BitVec 8)
  | .print text => text.bytes
  | .printHex val offset => hexBytes val offset

/-- The calls in order. -/
def runAll (fuel : ℕ) (calls : List Call) (v : Video) : Option Video :=
  calls.foldlM (fun v c => c.run fuel v) v

section calls

variable {width height : BitVec 16} {hw : 8 ≤ width.toNat} {hh : 16 ≤ height.toNat}
  {font : ℕ → BitVec 8} {v : Video} {t : Terminal (screen width height hw hh) (BitVec 8)}

theorem Shows.printHex (h : Shows font v t) (val : BitVec 64) (offset : BitVec 8) {fuel : ℕ}
    (hfuel : 65535 ≤ fuel) : ∃ v', Video.printHex fuel val offset v = some v' ∧
      Shows font v' (t.feedAll 0x0A (hexBytes val offset)) := by
  unfold Video.printHex hexBytes
  by_cases hoff : offset < 16
  · rw [if_pos hoff, if_pos hoff]
    obtain ⟨v₁, h₁, hs₁⟩ := h.print prefixText hfuel
    obtain ⟨v₂, h₂, hs₂⟩ := hs₁.print (hexText val offset hoff) hfuel
    obtain ⟨v₃, h₃, hs₃⟩ := hs₂.print spaceText hfuel
    refine ⟨v₃, ?_, ?_⟩
    · exact Option.bind_eq_some_iff.mpr ⟨v₁, h₁, Option.bind_eq_some_iff.mpr ⟨v₂, h₂, h₃⟩⟩
    · rw [Terminal.feedAll_append, Terminal.feedAll_append, ← hexText_bytes val offset hoff]
      exact hs₃
  · rw [if_neg hoff, if_neg hoff]
    exact ⟨v, rfl, h⟩

theorem Shows.call (h : Shows font v t) (c : Call) {fuel : ℕ} (hfuel : 65535 ≤ fuel) :
    ∃ v', c.run fuel v = some v' ∧ Shows font v' (t.feedAll 0x0A c.bytes) := by
  cases c with
  | print text => exact h.print text hfuel
  | printHex val offset => exact h.printHex val offset hfuel

theorem Shows.calls (h : Shows font v t) (calls : List Call) {fuel : ℕ} (hfuel : 65535 ≤ fuel) :
    ∃ v', runAll fuel calls v = some v' ∧
      Shows font v' (t.feedAll 0x0A (calls.flatMap Call.bytes)) := by
  induction calls generalizing v t with
  | nil => exact ⟨v, rfl, h⟩
  | cons c calls ih =>
      obtain ⟨v₁, h₁, hs₁⟩ := h.call c hfuel
      obtain ⟨v₂, h₂, hs₂⟩ := ih hs₁
      refine ⟨v₂, ?_, ?_⟩
      · unfold runAll
        rw [List.foldlM_cons, h₁]
        exact h₂
      · rw [List.flatMap_cons, Terminal.feedAll_append]
        exact hs₂

end calls

end Video

/-- **The screen** after any sequence of calls is the picture of the terminal that was sent their
bytes: every call returns, and a pixel is white if and only if the glyph of the last byte put
into its cell has its bit there. -/
theorem video_shows {width height : BitVec 16} (hw : 8 ≤ width.toNat) (hh : 16 ≤ height.toNat)
    (vbuf : ℕ → BitVec 32) (font : ℕ → BitVec 8) (calls : List Video.Call) :
    ∃ n, ∀ fuel ≥ n, ∃ v,
      Video.runAll fuel calls (Video.init width height vbuf font).clr = some v ∧
      ∀ x y, x < width.toNat → y < height.toNat → v.vid_buf (y * width.toNat + x) =
        if ((Terminal.empty (Video.screen width height hw hh) (BitVec 8)).feedAll 0x0A
          (calls.flatMap Video.Call.bytes)).render 8 16 (Video.fontGlyph font) x y
        then 0xFFFFFFFF else 0x00000000 := by
  refine ⟨65535, fun fuel hfuel => ?_⟩
  obtain ⟨v, hv, hshows⟩ := (Video.clr_shows hw hh vbuf font).calls calls hfuel
  exact ⟨v, hv, hshows.pixels⟩

/-- One letter. -/
def letterText : Video.Text where
  mem i := if i = 0 then 0x41 else 0
  len := 1
  ends := rfl
  nonzero := by decide
  short := by decide

/-- A screen of one row, and a font of bars: the first column of the letter is white. -/
theorem video_shows_bar : ∃ fuel v,
    Video.runAll fuel [.print letterText, .printHex 0 16]
      (Video.init 20 17 (fun _ => 7) (fun _ => 0x80)).clr = some v ∧
    v.vid_buf (15 * 20 + 0) = 0xFFFFFFFF ∧ v.vid_buf (15 * 20 + 1) = 0 := by
  have hw : 8 ≤ (20 : BitVec 16).toNat := by decide
  have hh : 16 ≤ (17 : BitVec 16).toNat := by decide
  obtain ⟨n, hn⟩ := video_shows hw hh (fun _ => 7) (fun _ => 0x80)
    [.print letterText, .printHex 0 16]
  obtain ⟨v, hv, hpixels⟩ := hn n (Nat.le_refl n)
  exact ⟨n, v, hv, hpixels 0 15 (by decide) (by decide), hpixels 1 15 (by decide) (by decide)⟩

end Ziemniak.Stage2
