import Ziemniak.Stage2.Defs
import Mathlib.Order.CompletePartialOrder
import Mathlib.Order.Interval.Set.Disjoint

/-! # Placing the kernel

The part of `main` that decides where the kernel goes: the size it asks for (`totalSize`, a
32-bit number), the first-fit search of the memory map (`findRegion`, with `0` for "not
found") and the three consecutive areas it cuts from the region (`layout`).

`Fits need e` is what the search looks for, stated on the values of the entry, and
`findRegion_eq` says that the loop is `List.find?` for it.  The search only promises a region
of the size it was asked for; `Placed` collects what follows for the areas, and
`allocate_placed` shows that the two pages of slack in the size absorb the rounding of the
region's base and of the kernel's size. -/

namespace Ziemniak.Stage2

open BareMetal

/-! ### The source -/

/-- Size of the kernel image in memory. -/
def imageSize (h : KernelHeader) : BitVec 64 := h.ebss - h.stext

/-- The requested size: image, stack, ten table pages and two pages of slack. -/
def totalSize (header : KernelHeader) : BitVec 32 :=
  let total_size := (header.ebss - header.stext + header.stack_size).setWidth 32
  let total_size := total_size + 10 * 4096
  total_size + 4096 * 2

/-- The loop over the memory map; `0` when it ends without a `break`. -/
def findRegion (total_size : BitVec 32) : List MemMap → BitVec 64
  | [] => 0
  | e :: mem_map =>
      if e.type ≠ FREE_RAM then findRegion total_size mem_map
      else if e.base < 0x100000 then findRegion total_size mem_map
      else if e.len ≥ total_size.setWidth 64 then pageUp e.base
      else findRegion total_size mem_map

/-- The local variables `load_buf`, `pages`, `stack` and, at the end, `buf`. -/
structure Layout where
  load_buf : BitVec 64
  pages : BitVec 64
  stack : BitVec 64
  buf : BitVec 64
deriving DecidableEq, Repr

def layout (header : KernelHeader) (buf : BitVec 64) : Layout :=
  let load_buf := buf
  let buf := buf + pageUp (header.ebss - header.stext)
  let pages := buf
  let buf := buf + 10 * 4096
  let stack := buf
  let buf := buf + header.stack_size
  { load_buf, pages, stack, buf }

/-- `none` is the halt with "Could not allocate sufficient memory". -/
def allocate (mem_map : List MemMap) (header : KernelHeader) : Option Layout :=
  let buf := findRegion (totalSize header) mem_map
  if buf = 0 then none else some (layout header buf)

/-! ### The search -/

/-- A region the search accepts: free, above the first megabyte, and `need` bytes long. -/
def Fits (need : ℕ) (e : MemMap) : Prop :=
  e.type = FREE_RAM ∧ 0x100000 ≤ e.base.toNat ∧ need ≤ e.len.toNat

instance (need : ℕ) (e : MemMap) : Decidable (Fits need e) :=
  inferInstanceAs (Decidable (_ ∧ _ ∧ _))

/-- The first region of the map that fits. -/
def firstFit (need : ℕ) (mem_map : List MemMap) : Option MemMap :=
  mem_map.find? (fun e => decide (Fits need e))

theorem firstFit_fits {need : ℕ} {mem_map : List MemMap} {e : MemMap}
    (h : firstFit need mem_map = some e) : e ∈ mem_map ∧ Fits need e := by
  refine ⟨List.mem_of_find?_eq_some h, ?_⟩
  simpa using List.find?_some h

/-- The loop is a first-fit search. -/
theorem findRegion_eq (total_size : BitVec 32) (mem_map : List MemMap) :
    findRegion total_size mem_map =
      match firstFit total_size.toNat mem_map with
      | none => 0
      | some e => pageUp e.base := by
  induction mem_map with
  | nil => rfl
  | cons e mem_map ih =>
      have hlt := total_size.isLt
      have hb : e.base < 0x100000 ↔ ¬ 0x100000 ≤ e.base.toNat := by
        simp [BitVec.lt_def]
      have hl : e.len ≥ total_size.setWidth 64 ↔ total_size.toNat ≤ e.len.toNat := by
        rw [ge_iff_le, BitVec.le_def, BitVec.toNat_setWidth]
        omega
      simp only [findRegion, firstFit, List.find?_cons, Fits, hb, hl, ne_eq, ih]
      by_cases h1 : e.type = FREE_RAM <;> by_cases h2 : 0x100000 ≤ e.base.toNat <;>
        by_cases h3 : total_size.toNat ≤ e.len.toNat <;> simp [h1, h2, h3]

/-! ### Addresses without overflow -/

theorem layout_load_buf (h : KernelHeader) (b : BitVec 64) : (layout h b).load_buf = b := rfl

theorem layout_pages (h : KernelHeader) (b : BitVec 64) :
    (layout h b).pages.toNat = (b.toNat + (pageUp (imageSize h)).toNat) % 2 ^ 64 := by
  have e : (layout h b).pages = b + pageUp (imageSize h) := by rw [layout, imageSize]
  rw [e, BitVec.toNat_add]

theorem layout_stack (h : KernelHeader) (b : BitVec 64) :
    (layout h b).stack.toNat = ((layout h b).pages.toNat + 40960) % 2 ^ 64 := by
  have e : (layout h b).stack = (layout h b).pages + 10 * 4096 := by rw [layout]
  rw [e, BitVec.toNat_add]
  rfl

theorem layout_buf (h : KernelHeader) (b : BitVec 64) :
    (layout h b).buf.toNat = ((layout h b).stack.toNat + h.stack_size.toNat) % 2 ^ 64 := by
  have e : (layout h b).buf = (layout h b).stack + h.stack_size := by rw [layout]
  rw [e, BitVec.toNat_add]

theorem layout_kernelCnt (h : KernelHeader) (b : BitVec 64) :
    (pageCnt ((layout h b).pages - (layout h b).load_buf)).toNat =
      (pageUp (imageSize h)).toNat / 4096 := by
  have e : (layout h b).pages - (layout h b).load_buf = pageUp (imageSize h) := by
    unfold layout imageSize
    rw [BitVec.add_comm, BitVec.add_sub_cancel]
  have hlt := (pageUp (imageSize h)).isLt
  have hmod := pageUp_mod (imageSize h)
  rw [e, pageCnt_toNat, pageUp_toNat (pageUp (imageSize h))]
  omega

/-- What the layout of a kernel of `image` and `stackSize` bytes promises: the three areas
follow one another and end at `buf`, and they start on page boundaries. -/
structure Placed (lay : Layout) (image stackSize : ℕ) : Prop where
  pages_eq : lay.pages.toNat = lay.load_buf.toNat + roundUp 4096 image
  stack_eq : lay.stack.toNat = lay.pages.toNat + 10 * 4096
  buf_eq : lay.buf.toNat = lay.stack.toNat + stackSize
  load_buf_aligned : 4096 ∣ lay.load_buf.toNat

namespace Placed

variable {lay : Layout} {image stackSize : ℕ}

theorem pages_aligned (p : Placed lay image stackSize) : 4096 ∣ lay.pages.toNat := by
  rw [p.pages_eq]
  exact Nat.dvd_add p.load_buf_aligned (dvd_roundUp _ _)

theorem disjoint (p : Placed lay image stackSize) :
    Disjoint (Set.Ico lay.load_buf.toNat lay.pages.toNat)
      (Set.Ico lay.pages.toNat lay.stack.toNat) ∧
    Disjoint (Set.Ico lay.load_buf.toNat lay.pages.toNat)
      (Set.Ico lay.stack.toNat lay.buf.toNat) ∧
    Disjoint (Set.Ico lay.pages.toNat lay.stack.toNat)
      (Set.Ico lay.stack.toNat lay.buf.toNat) := by
  have h := p.stack_eq
  refine ⟨Set.Ico_disjoint_Ico.mpr ?_, Set.Ico_disjoint_Ico.mpr ?_, Set.Ico_disjoint_Ico.mpr ?_⟩ <;>
    omega

end Placed

theorem pageUp_roundUp {x : BitVec 64} (h : x.toNat + 4095 < 2 ^ 64) :
    (pageUp x).toNat = roundUp 4096 x.toNat := by
  rw [pageUp_toNat, Nat.mod_eq_of_lt h]
  rfl

theorem roundUp_page (x : ℕ) : roundUp 4096 x = (x + 4095) / 4096 * 4096 := rfl

/-- A layout whose end fits in a word is placed as the arithmetic says. -/
theorem layout_placed {h : KernelHeader} {b : BitVec 64} (hb : 4096 ∣ b.toNat)
    (hend : b.toNat + (imageSize h).toNat + 4095 + 40960 + h.stack_size.toNat < 2 ^ 64) :
    Placed (layout h b) (imageSize h).toNat h.stack_size.toNat := by
  have hP := pageUp_roundUp (x := imageSize h) (by omega)
  have hle : roundUp 4096 (imageSize h).toNat ≤ (imageSize h).toNat + 4095 := by
    rw [roundUp_page]; omega
  have hp := layout_pages h b
  have hs := layout_stack h b
  have hf := layout_buf h b
  have hl : (layout h b).load_buf.toNat = b.toNat := rfl
  rw [hP] at hp
  exact ⟨by omega, by omega, by omega, hb⟩

theorem totalSize_toNat {h : KernelHeader}
    (hs : (imageSize h).toNat + h.stack_size.toNat + 12 * 4096 < 2 ^ 32) :
    (totalSize h).toNat = (imageSize h).toNat + h.stack_size.toNat + 12 * 4096 := by
  have hc : (10 * 4096 + 4096 * 2 : BitVec 32) = 49152#32 := by decide
  have e : totalSize h = (imageSize h + h.stack_size).setWidth 32 + 10 * 4096 + 4096 * 2 := by
    rw [totalSize, imageSize]
  have hsum : (imageSize h + h.stack_size).toNat = (imageSize h).toNat + h.stack_size.toNat := by
    rw [BitVec.toNat_add]
    omega
  rw [e, BitVec.add_assoc, hc, BitVec.toNat_add, BitVec.toNat_setWidth, hsum,
    BitVec.toNat_ofNat]
  omega

/-! ### Allocation -/

theorem allocate_eq_none_iff {mem_map : List MemMap} {h : KernelHeader} :
    allocate mem_map h = none ↔ findRegion (totalSize h) mem_map = 0 := by
  simp only [allocate]
  split_ifs with h0
  · exact ⟨fun _ => h0, fun _ => rfl⟩
  · exact ⟨nofun, fun hz => absurd hz h0⟩

theorem allocate_eq_some_iff {mem_map : List MemMap} {h : KernelHeader} {lay : Layout} :
    allocate mem_map h = some lay ↔ ∃ e, firstFit (totalSize h).toNat mem_map = some e ∧
      pageUp e.base ≠ 0 ∧ lay = layout h (pageUp e.base) := by
  unfold allocate
  simp only [findRegion_eq]
  cases firstFit (totalSize h).toNat mem_map with
  | none => simp
  | some e =>
      by_cases h0 : pageUp e.base = 0
      · simp [h0]
      · simp [eq_comm]

/-- The base of an accepted region below `2 ^ 52` does not round up to the "not found" mark. -/
theorem pageUp_base_ne_zero {need : ℕ} {e : MemMap} (hf : Fits need e)
    (hend : e.base.toNat + e.len.toNat ≤ 2 ^ 52) : pageUp e.base ≠ 0 := by
  intro h0
  have hz : (pageUp e.base).toNat = 0 := by rw [h0]; rfl
  have hb := hf.2.1
  rw [pageUp_toNat] at hz
  omega

section correctness

variable {mem_map : List MemMap} {h : KernelHeader}
  (hmap : ∀ e ∈ mem_map, e.base.toNat + e.len.toNat ≤ 2 ^ 52)
  (hs : (imageSize h).toNat + h.stack_size.toNat + 12 * 4096 < 2 ^ 32)

include hmap hs

theorem allocate_none_iff : allocate mem_map h = none ↔
    ∀ e ∈ mem_map, ¬ Fits ((imageSize h).toNat + h.stack_size.toNat + 12 * 4096) e := by
  rw [allocate_eq_none_iff, findRegion_eq, totalSize_toNat hs]
  cases hf : firstFit ((imageSize h).toNat + h.stack_size.toNat + 12 * 4096) mem_map with
  | none =>
      have hall := List.find?_eq_none.mp hf
      simpa using hall
  | some e =>
      obtain ⟨hmem, hfit⟩ := firstFit_fits hf
      have hne := pageUp_base_ne_zero hfit (hmap e hmem)
      constructor
      · intro h0
        exact absurd h0 hne
      · intro hall
        exact absurd hfit (hall e hmem)

/-- The region found is the first that fits, the areas are placed at its rounded base, and
everything up to the end of the stack lies inside it. -/
theorem allocate_placed {lay : Layout} (ha : allocate mem_map h = some lay) :
    ∃ e, firstFit ((imageSize h).toNat + h.stack_size.toNat + 12 * 4096) mem_map = some e ∧
      lay.load_buf.toNat = roundUp 4096 e.base.toNat ∧
      Placed lay (imageSize h).toNat h.stack_size.toNat ∧
      e.base.toNat ≤ lay.load_buf.toNat ∧ lay.buf.toNat ≤ e.base.toNat + e.len.toNat := by
  rw [allocate_eq_some_iff, totalSize_toNat hs] at ha
  obtain ⟨e, hf, _, rfl⟩ := ha
  obtain ⟨hmem, _, _, hlen⟩ := firstFit_fits hf
  have hend := hmap e hmem
  have hL : (pageUp e.base).toNat = roundUp 4096 e.base.toNat := pageUp_roundUp (by omega)
  have hP : Placed (layout h (pageUp e.base)) (imageSize h).toNat h.stack_size.toNat := by
    apply layout_placed
    · rw [hL]; exact dvd_roundUp _ _
    · rw [hL, roundUp_page]; omega
  have hlb : (layout h (pageUp e.base)).load_buf.toNat = roundUp 4096 e.base.toNat := hL
  have h1 := hP.pages_eq
  have h2 := hP.stack_eq
  have h3 := hP.buf_eq
  rw [roundUp_page] at h1 hlb
  refine ⟨e, hf, hL, hP, ?_, ?_⟩ <;> omega

end correctness

end Ziemniak.Stage2
