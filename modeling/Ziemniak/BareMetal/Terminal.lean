import Mathlib.Data.Nat.Basic
import Mathlib.Tactic.Common

/-! # A character terminal

A grid of cells with a cursor.  A character is put into the cell at the cursor, which then
advances; past the last column the line break waits for the next character.  A new line goes
back to the first column and to the next row, after the last row to the first one, and clears
nothing.

`render` draws the cells with glyphs of `gw` by `gh` pixels: pixel `(x, y)` belongs to the cell
`(y / gh, x / gw)`, and outside the grid nothing is drawn. -/

namespace BareMetal

structure Grid where
  cols : ℕ
  rows : ℕ
  cols_pos : 0 < cols
  rows_pos : 0 < rows

/-- The cursor and, for each cell, the last character put into it. -/
structure Terminal (g : Grid) (α : Type) where
  col : ℕ
  row : ℕ
  cells : ℕ → ℕ → Option α
  col_le : col ≤ g.cols
  row_lt : row < g.rows

namespace Terminal

variable {g : Grid} {α : Type}

def empty (g : Grid) (α : Type) : Terminal g α where
  col := 0
  row := 0
  cells _ _ := none
  col_le := Nat.zero_le _
  row_lt := g.rows_pos

def newline (t : Terminal g α) : Terminal g α where
  col := 0
  row := (t.row + 1) % g.rows
  cells := t.cells
  col_le := Nat.zero_le _
  row_lt := Nat.mod_lt _ g.rows_pos

/-- The line break that was waiting. -/
def wrap (t : Terminal g α) : Terminal g α := if t.col = g.cols then t.newline else t

theorem wrap_col_lt (t : Terminal g α) : t.wrap.col < g.cols := by
  have hle := t.col_le
  unfold wrap
  split_ifs with h
  · exact g.cols_pos
  · omega

theorem wrap_cells (t : Terminal g α) : t.wrap.cells = t.cells := by
  unfold wrap
  split_ifs <;> rfl

def put (c : α) (t : Terminal g α) : Terminal g α where
  col := t.wrap.col + 1
  row := t.wrap.row
  cells r k := if r = t.wrap.row ∧ k = t.wrap.col then some c else t.cells r k
  col_le := t.wrap_col_lt
  row_lt := t.wrap.row_lt

/-- One character of a text, `nl` being the new line. -/
def feed [DecidableEq α] (nl c : α) (t : Terminal g α) : Terminal g α :=
  if c = nl then t.newline else t.put c

def feedAll [DecidableEq α] (nl : α) (t : Terminal g α) (cs : List α) : Terminal g α :=
  cs.foldl (fun t c => t.feed nl c) t

theorem feedAll_append [DecidableEq α] (nl : α) (t : Terminal g α) (l l' : List α) :
    t.feedAll nl (l ++ l') = (t.feedAll nl l).feedAll nl l' := List.foldl_append

/-! ### Pixels -/

variable (gw gh : ℕ) (glyph : α → ℕ → ℕ → Bool)

/-- Whether pixel `(x, y)` is set. -/
def render (t : Terminal g α) (x y : ℕ) : Bool :=
  if x / gw < g.cols ∧ y / gh < g.rows then
    match t.cells (y / gh) (x / gw) with
    | some c => glyph c (x % gw) (y % gh)
    | none => false
  else false

@[simp] theorem render_newline (t : Terminal g α) :
    t.newline.render gw gh glyph = t.render gw gh glyph := rfl

theorem render_empty (x y : ℕ) : (empty g α).render gw gh glyph x y = false := by
  unfold render empty
  simp

theorem render_put (c : α) (t : Terminal g α) (x y : ℕ) : (t.put c).render gw gh glyph x y =
    if y / gh = t.wrap.row ∧ x / gw = t.wrap.col then glyph c (x % gw) (y % gh)
    else t.render gw gh glyph x y := by
  have hcol := t.wrap_col_lt
  have hrow := t.wrap.row_lt
  unfold render put
  simp only
  by_cases h : y / gh = t.wrap.row ∧ x / gw = t.wrap.col
  · have hin : x / gw < g.cols ∧ y / gh < g.rows := by omega
    rw [if_pos hin, if_pos h, if_pos h]
  · rw [if_neg h, if_neg h]

end Terminal

end BareMetal
