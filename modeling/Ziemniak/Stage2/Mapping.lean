import Ziemniak.Stage2.Translation

/-! # The mapping handed to the kernel

What the tables mean for the areas `main` allocates.  The result of the walk is compared with
the two promises of the loader's memory map: the stack area appears at the top of the address
space, and what the kernel reads straight from the handoff is mapped to itself.

* The stack loop counts its frames down from the end of the allocation and starts with that end
  itself, so every stack page is one page too high (`Builds.walk_stack`).
* Only the first two megabytes are mapped to themselves, so the table at `peek_entry` is
  reachable exactly when the kernel is loaded low enough (`handoffMapped_iff`). -/

namespace Ziemniak.Stage2

open BareMetal BareMetal.Paging

/-! ### The allocation below 4 GiB -/

/-- Where the allocation ends, as a number. -/
def allocationEnd (h : KernelHeader) (lay : Layout) : ℕ :=
  lay.load_buf.toNat + roundUp 4096 (imageSize h).toNat + 10 * 4096 + h.stack_size.toNat

theorem allocate_load_buf {mem_map : List MemMap} {h : KernelHeader} {lay : Layout}
    (ha : allocate mem_map h = some lay) :
    lay = layout h lay.load_buf ∧ 4096 ∣ lay.load_buf.toNat := by
  obtain ⟨e, -, -, rfl⟩ := allocate_eq_some_iff.mp ha
  exact ⟨rfl, Nat.dvd_of_mod_eq_zero (pageUp_mod e.base)⟩

theorem allocate_regular {mem_map : List MemMap} {h : KernelHeader} {lay : Layout}
    (ha : allocate mem_map h = some lay) (hk : (imageSize h).toNat ≤ 512 * 4096)
    (hs : h.stack_size.toNat ≤ 511 * 4096) (hend : allocationEnd h lay < 2 ^ 32) :
    Regular h lay := by
  obtain ⟨hlay, hdvd⟩ := allocate_load_buf ha
  have hle := le_roundUp (n := 4096) (by norm_num) (imageSize h).toNat
  unfold allocationEnd at hend
  have hp : Placed lay (imageSize h).toNat h.stack_size.toNat := by
    rw [hlay]
    exact layout_placed hdvd (by omega)
  have h1 := hp.pages_eq
  have h2 := hp.stack_eq
  have h3 := hp.buf_eq
  exact ⟨hp, by omega, hk, hs⟩

/-- A kernel that fits its page table is mapped: the tables get built. -/
theorem Regular.builds {h : KernelHeader} {lay : Layout} (R : Regular h lay) (m : Mem) :
    Builds h lay m (built h lay m) := by
  have hcnt := R.kernelCnt_le
  exact builds_iff.mpr ⟨R.buf_lt, by omega, rfl⟩

theorem Builds.walk_eq {h : KernelHeader} {lay : Layout} {m m' : Mem} (hb : Builds h lay m m')
    (R : Regular h lay) {v : BitVec 64} (hv : Canonical v) :
    walk m' (lay.page_tab.setWidth 64) v = translation h lay v := by
  obtain ⟨-, -, rfl⟩ := builds_iff.mp hb
  exact (built_tablesAt R m).walk_eq R hv

/-! ### The stack window -/

/-- The top `stack_size` bytes of the address space. -/
def InStackWindow (h : KernelHeader) (v : BitVec 64) : Prop :=
  2 ^ 64 ≤ v.toNat + h.stack_size.toNat

instance (h : KernelHeader) (v : BitVec 64) : Decidable (InStackWindow h v) :=
  inferInstanceAs (Decidable (_ ≤ _))

/-- The stack window shows the stack area. -/
def StackMapped (h : KernelHeader) (lay : Layout) (m : Mem) : Prop :=
  ∀ v, InStackWindow h v → walk m (lay.page_tab.setWidth 64) v =
    some (lay.stack.toNat + (v.toNat - (2 ^ 64 - h.stack_size.toNat)))

/-- Every frame of the window lies in the area `[stack, load_end)`. -/
def StackInside (h : KernelHeader) (lay : Layout) (m : Mem) : Prop :=
  ∀ v a, InStackWindow h v → walk m (lay.page_tab.setWidth 64) v = some a →
    lay.stack.toNat ≤ a ∧ a < lay.buf.toNat

/-- Every byte of the area `[stack, load_end)` is seen through the window. -/
def StackCovered (h : KernelHeader) (lay : Layout) (m : Mem) : Prop :=
  ∀ a, lay.stack.toNat ≤ a → a < lay.buf.toNat →
    ∃ v, InStackWindow h v ∧ walk m (lay.page_tab.setWidth 64) v = some a

section stack

variable {h : KernelHeader} {lay : Layout} {m m' : Mem} (hb : Builds h lay m m')
  (R : Regular h lay) (hS : 4096 ∣ h.stack_size.toNat)

include hb R hS

/-- The window shows the bytes one page above the stack area. -/
theorem Builds.walk_stack {v : BitVec 64} (hv : InStackWindow h v) :
    walk m' (lay.page_tab.setWidth 64) v =
      some (lay.stack.toNat + 4096 + (v.toNat - (2 ^ 64 - h.stack_size.toNat))) := by
  have h1 := R.buf_eq
  have h2 := R.stack_eq
  have h3 := R.pages_aligned
  have h4 := R.stack_le
  have h5 := v.isLt
  have hr : roundUp 4096 h.stack_size.toNat = h.stack_size.toNat := by
    rw [roundUp_page]; omega
  unfold InStackWindow at hv
  have e : roundDown 4096 (lay.buf.toNat - 4096 * (511 - index 12 v)) + v.toNat % 4096 =
      lay.stack.toNat + 4096 + (v.toNat - (2 ^ 64 - h.stack_size.toNat)) := by
    simp only [roundDown, index]; omega
  rw [hb.walk_eq R (Or.inr (by omega)), translation_stack R (by omega), e]

end stack

/-- **The stack window never shows the stack area.**  Whatever the map and the header, the
window is mapped one page too high: its last page is the frame after the allocation, and the
first page of the stack area is not mapped by it. -/
theorem stackMapped_never {mem_map : List MemMap} {h : KernelHeader} {lay : Layout} {n : ℕ}
    (hn : 1 ≤ n ∧ n ≤ 511) (hS : h.stack_size.toNat = n * 4096)
    (hK : (imageSize h).toNat ≤ 0x200000) (ha : allocate mem_map h = some lay)
    (hend : allocationEnd h lay < 2 ^ 32) (m : Mem) :
    (∃ m', Builds h lay m m') ∧ ∀ m', Builds h lay m m' →
      (∀ v, InStackWindow h v → walk m' (lay.page_tab.setWidth 64) v =
        some (lay.stack.toNat + 4096 + (v.toNat - (2 ^ 64 - h.stack_size.toNat)))) ∧
      ¬ StackMapped h lay m' ∧ ¬ StackInside h lay m' ∧ ¬ StackCovered h lay m' := by
  have R : Regular h lay := allocate_regular ha (by omega) (by omega) hend
  refine ⟨⟨_, R.builds m⟩, ?_⟩
  intro m' hb
  have hwalk : ∀ v, InStackWindow h v → walk m' (lay.page_tab.setWidth 64) v =
      some (lay.stack.toNat + 4096 + (v.toNat - (2 ^ 64 - h.stack_size.toNat))) :=
    fun v hv => hb.walk_stack R (by omega) hv
  have hbuf := R.buf_eq
  have hlast : (BitVec.allOnes 64).toNat = 2 ^ 64 - 1 := BitVec.toNat_allOnes
  have hin : InStackWindow h (BitVec.allOnes 64) := by
    rw [InStackWindow, hlast]; omega
  have htop := hwalk _ hin
  refine ⟨hwalk, ?_, ?_, ?_⟩
  · intro hm
    rw [hm _ hin, Option.some.injEq] at htop
    omega
  · intro hm
    have := (hm _ _ hin htop).2
    rw [hlast] at this
    omega
  · intro hm
    obtain ⟨v, hv, ha⟩ := hm lay.stack.toNat le_rfl (by omega)
    rw [hwalk v hv, Option.some.injEq] at ha
    omega

/-- Seven megabytes free above the first one. -/
def oneRegion : List MemMap := [{ base := 0x100000, len := 0x700000, type := 1, attrs := 1 }]

/-- Low memory, what the firmware keeps of it, a hole that is too small, and 7 MiB from 2 MiB on. -/
def pcMap : List MemMap :=
  [{ base := 0, len := 0x9FC00, type := 1, attrs := 1 },
    { base := 0x9FC00, len := 0x400, type := 2, attrs := 1 },
    { base := 0x100800, len := 0x8000, type := 1, attrs := 1 },
    { base := 0x200000, len := 0x700000, type := 1, attrs := 1 },
    { base := 0xFFFC0000, len := 0x40000, type := 2, attrs := 1 }]

/-- A kernel of three pages with a stack of four. -/
def smallKernel : KernelHeader where
  start := 0xFFFFFFFF80000050
  stext := 0xFFFFFFFF80000000
  etext := 0xFFFFFFFF80001000
  sdata := 0xFFFFFFFF80001000
  edata := 0xFFFFFFFF80001800
  srodata := 0xFFFFFFFF80002000
  erodata := 0xFFFFFFFF80002400
  sbss := 0xFFFFFFFF80003000
  ebss := 0xFFFFFFFF80003000
  stack_size := 0x4000

def smallLayout : Layout where
  load_buf := 0x100000
  pages := 0x103000
  stack := 0x10D000
  buf := 0x111000

theorem allocate_small : allocate oneRegion smallKernel = some smallLayout := by decide

def pcLayout : Layout where
  load_buf := 0x200000
  pages := 0x203000
  stack := 0x20D000
  buf := 0x211000

theorem allocate_pcMap : allocate pcMap smallKernel = some pcLayout := by decide

theorem regular_small : Regular smallKernel smallLayout :=
  allocate_regular allocate_small (by decide) (by decide) (by decide)

/-- The last page of the window is the frame at the end pointer. -/
theorem lastStackPage_small : allocate oneRegion smallKernel = some smallLayout ∧
    ∃ m', Builds smallKernel smallLayout (fun _ => 0) m' ∧
      walk m' (smallLayout.page_tab.setWidth 64) 0xFFFFFFFFFFFFF000 = some 0x111000 ∧
      ¬ StackMapped smallKernel smallLayout m' := by
  have hb := regular_small.builds (fun _ => 0)
  have hw : walk _ (smallLayout.page_tab.setWidth 64) 0xFFFFFFFFFFFFF000#64 = some 0x111000 :=
    hb.walk_stack regular_small (by decide) (v := 0xFFFFFFFFFFFFF000#64) (by decide)
  refine ⟨allocate_small, _, hb, hw, ?_⟩
  intro hm
  have hs := hm 0xFFFFFFFFFFFFF000#64 (by decide)
  rw [hw] at hs
  exact absurd hs (by decide)

theorem stackMapped_never_small : ∃ m', Builds smallKernel smallLayout (fun _ => 0) m' ∧
    ¬ StackMapped smallKernel smallLayout m' := by
  obtain ⟨⟨m', hb⟩, hall⟩ := stackMapped_never (h := smallKernel)
    (n := 4) (by decide) (by decide) (by decide) allocate_small (by decide)
    (fun _ => 0)
  exact ⟨m', hb, (hall m' hb).2.1⟩

/-! ### The handoff -/

/-- Bytes of the packed record `long_mode_data`. -/
def LM_DATA_SIZE : ℕ := 63

/-- The loader's own data: `rm_data` with the segment `stub.asm` stores in it, and the address
of `lm_data`, a variable of the image that the linker script puts at `[0x2000, 0xA000)`. -/
structure Statics where
  rm_data : RealModeData
  lm_data : BitVec 32
  memmap_seg_eq : rm_data.memmap_seg = MEMMAP_SEG
  lm_data_ge : 0x2000 ≤ lm_data.toNat
  lm_data_le : lm_data.toNat + LM_DATA_SIZE ≤ 0xA000

/-- `(struct mem_map *)(rm_data.memmap_seg << 4)` -/
def memMapPtr (rm_data : RealModeData) : BitVec 32 := rm_data.memmap_seg.setWidth 32 <<< 4

/-- The assignments to `lm_data`. -/
def fillLongModeData (rm_data : RealModeData) (lay : Layout) : LongModeData where
  framebuf_ptr := rm_data.framebuf_ptr.setWidth 64
  font_ptr := rm_data.font_ptr.setWidth 64
  memmap_ptr := (memMapPtr rm_data).setWidth 64
  load_buf := lay.load_buf
  load_end := lay.buf
  peek_entry := (entryPtr lay.page_tab PDE_MID 0).setWidth 64
  memmap_size := rm_data.memmap_size
  scr_width := rm_data.scr_width
  scr_height := rm_data.scr_height
  boot_disk_io := rm_data.boot_disk_io
  boot_disk_ctl := rm_data.boot_disk_ctl
  is_boot_disk_slv := rm_data.is_boot_disk_slv
  red_pos := rm_data.red_pos
  green_pos := rm_data.green_pos
  blue_pos := rm_data.blue_pos
  rsrvd_pos := rm_data.rsrvd_pos

/-- The bytes the kernel reads through the pointers of the handoff: `lm_data`, the memory map
and the 512 entries of the peek table. -/
def InHandoff (st : Statics) (lay : Layout) (a : ℕ) : Prop :=
  let lm := fillLongModeData st.rm_data lay
  (st.lm_data.toNat ≤ a ∧ a < st.lm_data.toNat + LM_DATA_SIZE) ∨
  (lm.memmap_ptr.toNat ≤ a ∧ a < lm.memmap_ptr.toNat + MEM_MAP_SIZE * lm.memmap_size.toNat) ∨
  (lm.peek_entry.toNat ≤ a ∧ a < lm.peek_entry.toNat + 8 * 512)

/-- Every byte of the handoff is mapped to itself. -/
def HandoffMapped (st : Statics) (lay : Layout) (m : Mem) : Prop :=
  ∀ a, InHandoff st lay a → walk m (lay.page_tab.setWidth 64) (BitVec.ofNat 64 a) = some a

theorem memMapPtr_toNat (st : Statics) : (memMapPtr st.rm_data).toNat = 0xA000 := by
  unfold memMapPtr
  rw [st.memmap_seg_eq]
  rfl

/-- The loader's data and the memory map lie below 2 MiB, whatever the map's length. -/
theorem handoff_low {st : Statics} {lay : Layout} {a : ℕ} (ha : InHandoff st lay a) :
    a < 2 ^ 21 ∨ ((entryPtr lay.page_tab PDE_MID 0).toNat ≤ a ∧
      a < (entryPtr lay.page_tab PDE_MID 0).toNat + 4096) := by
  have h1 := memMapPtr_toNat st
  have h2 := st.rm_data.memmap_size.isLt
  have h3 := st.lm_data_le
  simp only [InHandoff, fillLongModeData, LM_DATA_SIZE, MEM_MAP_SIZE, BitVec.toNat_setWidth]
    at ha h3
  have h4 := (entryPtr lay.page_tab PDE_MID 0).isLt
  omega

theorem peek_inHandoff (st : Statics) (lay : Layout) :
    InHandoff st lay (entryPtr lay.page_tab PDE_MID 0).toNat := by
  have h4 := (entryPtr lay.page_tab PDE_MID 0).isLt
  unfold InHandoff fillLongModeData
  simp only [BitVec.toNat_setWidth]
  omega

/-! ### The identity mapping -/

section identity

variable {h : KernelHeader} {lay : Layout} (ht : 4096 ∣ lay.page_tab.toNat)
  (hcnt : 4096 + (pageCnt (lay.pages - lay.load_buf)).toNat ≤ 2 ^ 29)

include ht hcnt

/-- The page-table loops leave the entries of the upper levels alone, as long as the kernel
loop does not run around the 4 GiB it can address. -/
theorem read_built_of_lt (m : Mem) {s : ℕ} (hs : s < 4096) :
    read64 (built h lay m) (slot lay.page_tab s) =
      read64 (linkTables lay.page_tab (fill m (lay.pages.toNat % 2 ^ 32) lay.buf.toNat 0))
        (slot lay.page_tab s) := by
  have hn := stackRounds_le h
  have hl : ∀ s ∈ (kernelSlots lay ++ stackSlots h lay).map Prod.fst, 4096 ≤ s ∧ s < 2 ^ 29 := by
    intro s hs
    rw [List.map_append, kernelSlots_fst, stackSlots_fst, List.mem_append] at hs
    cases hs with
    | inl hs =>
        obtain ⟨i, hi, rfl⟩ := List.mem_map.mp hs
        rw [List.mem_range] at hi
        omega
    | inr hs =>
        obtain ⟨j, hj, rfl⟩ := List.mem_map.mp hs
        omega
  have e : tableStores h lay = linkStores lay.page_tab ++
      slotStores lay.page_tab (kernelSlots lay ++ stackSlots h lay) := by
    rw [tableStores_eq, slots, List.append_assoc, linkStores_eq, slotStores, List.map_append]
    rfl
  unfold built
  rw [e, writeAll_append, read_slot_of_not_mem ht (fun s hs => (hl s hs).2) (by omega)
    (fun hm => absurd (hl s hm).1 (by omega))]
  rfl

theorem read_built_link (m : Mem) {a i : ℕ} {p : Page} (hm : (a, i, p) ∈ links lay.page_tab) :
    read64 (built h lay m) (slot lay.page_tab (512 * a + i)) = p.word := by
  have hmem : (512 * a + i, p.word) ∈ linkSlots lay.page_tab := List.mem_map_of_mem hm
  have hlt : ∀ s ∈ (linkSlots lay.page_tab).map Prod.fst, s < 4096 := by
    intro s hs
    rw [linkSlots_fst] at hs
    exact linkSlots_lt hs
  rw [read_built_of_lt ht hcnt m (hlt _ (List.mem_map_of_mem hmem)), linkTables, linkStores_eq]
  refine read_slot_of_mem ht (fun s hs => lt_trans (hlt s hs) (by norm_num)) ?_ hmem
  rw [linkSlots_fst]
  decide

theorem read_built_unlinked {s : ℕ} (hs : s < 4096)
    (hl : s ∉ [511, 256, 0, 1022, 1023, 1024, 1536, 2048, 3584, 3071]) :
    read64 (built h lay (fun _ => 0)) (slot lay.page_tab s) = 0 := by
  rw [← linkSlots_fst lay.page_tab] at hl
  have hlt : ∀ s ∈ (linkSlots lay.page_tab).map Prod.fst, s < 2 ^ 29 := by
    intro s hs
    rw [linkSlots_fst] at hs
    exact lt_trans (linkSlots_lt hs) (by norm_num)
  rw [read_built_of_lt ht hcnt _ hs, linkTables, linkStores_eq,
    read_slot_of_not_mem ht hlt (by omega) hl]
  apply read64_zero
  intro x _ _
  unfold fill
  split_ifs <;> rfl

/-- Up to the directory of the lowest gigabyte the walk of a low address follows the links. -/
theorem walk_built_low (m : Mem) {v : BitVec 64} (hv : v.toNat < 2 ^ 39) :
    walk (built h lay m) (lay.page_tab.setWidth 64) v =
      walkPdpte (built h lay m)
        (read64 (built h lay m) (slot lay.page_tab (512 * PDPE_B + index 30 v))) v := by
  have h39 : index 39 v = 0 := by simp only [index]; omega
  have hc : Canonical v := Or.inl (by omega)
  rw [walk_page_tab ht, if_pos hc, h39, read_built_link ht hcnt m (by simp [links])
    (p := genPml4ePdpePte (entryPtr lay.page_tab PDPE_B 0)), walkPml4e_link ht]

/-- Addresses below 2 MiB are mapped to themselves. -/
theorem walk_built_identity (m : Mem) {v : BitVec 64} (hv : v.toNat < 2 ^ 21) :
    walk (built h lay m) (lay.page_tab.setWidth 64) v = some v.toNat := by
  have h30 : index 30 v = 0 := by simp only [index]; omega
  have h21 : index 21 v = 0 := by simp only [index]; omega
  rw [walk_built_low ht hcnt m (by omega), h30, read_built_link ht hcnt m (by simp [links])
    (p := genPml4ePdpePte (entryPtr lay.page_tab PDE_LOW 0)), walkPdpte_link ht, h21,
    read_built_link ht hcnt m (by simp [links]) (p := genPde 0 1), walkPde_low,
    Nat.mod_eq_of_lt hv]

/-- Above them nothing is mapped below 4 GiB, when the memory was empty. -/
theorem walk_built_unmapped {v : BitVec 64} (hlo : 2 ^ 21 ≤ v.toNat) (hhi : v.toNat < 2 ^ 39) :
    walk (built h lay (fun _ => 0)) (lay.page_tab.setWidth 64) v = none := by
  have hi := index_lt 30 v
  have hj := index_lt 21 v
  rw [walk_built_low ht hcnt _ hhi]
  by_cases h30 : index 30 v = 0
  · have h21 : index 21 v ≠ 0 := by simp only [index] at h30 ⊢; omega
    rw [h30, read_built_link ht hcnt _ (by simp [links])
      (p := genPml4ePdpePte (entryPtr lay.page_tab PDE_LOW 0)), walkPdpte_link ht]
    unfold PDE_LOW
    rw [read_built_unlinked ht hcnt (by omega) (by simp; omega)]
    rfl
  · unfold PDPE_B
    rw [read_built_unlinked ht hcnt (by omega) (by simp; omega)]
    rfl

end identity

/-- Where the peek table lies, from the region and the header. -/
theorem peekEntry_toNat (h : KernelHeader) (b : BitVec 64) :
    (entryPtr (layout h b).page_tab PDE_MID 0).toNat =
      (b.toNat + (pageUp (imageSize h)).toNat + 6 * 4096) % 2 ^ 32 := by
  have hp := layout_pages h b
  rw [entryPtr_eq_slot, slot_eq, Layout.page_tab, BitVec.toNat_setWidth, hp]
  unfold PDE_MID
  omega

theorem layout_page_tab_dvd {h : KernelHeader} {b : BitVec 64} (hb : 4096 ∣ b.toNat) :
    4096 ∣ (layout h b).page_tab.toNat := by
  have hk := pageUp_mod (imageSize h)
  have hp := layout_pages h b
  unfold Layout.page_tab
  rw [BitVec.toNat_setWidth]
  omega

/-- **When the handoff is mapped to itself.**  The region's base and the kernel's size decide:
the peek table has to end below 2 MiB.  `hends` says that the tables get built at all: the loop
that clears the area ends, which also has to leave the loader itself alone.  `hfit` says that the
kernel loop does not run around its 32-bit pointers into the tables. -/
theorem handoffMapped_iff {mem_map : List MemMap} {h : KernelHeader} {e : MemMap} (st : Statics)
    (hf : firstFit (totalSize h).toNat mem_map = some e) (h0 : pageUp e.base ≠ 0)
    (hends : ∃ m m', Builds h (layout h (pageUp e.base)) m m')
    (hfit : (pageUp (imageSize h)).toNat ≤ 2 ^ 41 - 2 ^ 24) :
    allocate mem_map h = some (layout h (pageUp e.base)) ∧
    ((∀ m m', Builds h (layout h (pageUp e.base)) m m' →
        HandoffMapped st (layout h (pageUp e.base)) m') ↔
      ((pageUp e.base).toNat + (pageUp (imageSize h)).toNat + 6 * 4096) % 2 ^ 32 + 4096 ≤
        2 ^ 21) := by
  have ha : allocate mem_map h = some (layout h (pageUp e.base)) :=
    allocate_eq_some_iff.mpr ⟨e, hf, h0, rfl⟩
  have hb := pageUp_mod e.base
  generalize pageUp e.base = b at ha hb hends ⊢
  have hpe := peekEntry_toNat h b
  have hcnt := layout_kernelCnt h b
  have ht : 4096 ∣ (layout h b).page_tab.toNat :=
    layout_page_tab_dvd (Nat.dvd_of_mod_eq_zero hb)
  have hdvd := entryPtr_dvd ht PDE_MID
  have hlt := (entryPtr (layout h b).page_tab PDE_MID 0).isLt
  have hfit' : 4096 + (pageCnt ((layout h b).pages - (layout h b).load_buf)).toNat ≤ 2 ^ 29 := by
    omega
  refine ⟨ha, ?_, ?_⟩
  · intro hall
    by_contra hcond
    obtain ⟨_, _, hb⟩ := hends
    obtain ⟨hbuf, hk, -⟩ := builds_iff.mp hb
    have hself := hall (fun _ => 0) _ (builds_iff.mpr ⟨hbuf, hk, rfl⟩) _ (peek_inHandoff st _)
    have hv : (BitVec.ofNat 64 (entryPtr (layout h b).page_tab PDE_MID 0).toNat).toNat =
        (entryPtr (layout h b).page_tab PDE_MID 0).toNat := by
      rw [BitVec.toNat_ofNat]; omega
    rw [walk_built_unmapped ht hfit' (by omega) (by omega)] at hself
    cases hself
  · intro hcond m m' hbuilds a ha
    obtain ⟨-, -, rfl⟩ := builds_iff.mp hbuilds
    have hlow : a < 2 ^ 21 := by
      cases handoff_low ha with
      | inl h => exact h
      | inr h => omega
    have hv : (BitVec.ofNat 64 a).toNat = a := by
      rw [BitVec.toNat_ofNat]; omega
    rw [walk_built_identity ht hfit' m (by omega), hv]

/-- A kernel of one megabyte. -/
def largeKernel : KernelHeader := { smallKernel with ebss := 0xFFFFFFFF80100000 }

def largeLayout : Layout where
  load_buf := 0x100000
  pages := 0x200000
  stack := 0x20A000
  buf := 0x20E000

theorem allocate_large : allocate oneRegion largeKernel = some largeLayout := by decide

theorem regular_large : Regular largeKernel largeLayout :=
  allocate_regular allocate_large (by decide) (by decide) (by decide)

/-- The data of a machine with one usable region and an 800 by 600 screen. -/
def plainStatics : Statics where
  rm_data :=
    { framebuf_ptr := 0xFD000000, font_ptr := 0x1000, red_pos := 16, green_pos := 8, blue_pos := 0,
      rsrvd_pos := 24, memmap_seg := 0x0A00, memmap_size := 1, scr_width := 800,
      scr_height := 600, boot_disk := 0xE0, is_boot_disk_slv := 0, boot_disk_io := 0x170,
      boot_disk_ctl := 0x376 }
  lm_data := 0x5000
  memmap_seg_eq := rfl
  lm_data_ge := by decide
  lm_data_le := by decide

/-- The peek table of the larger kernel is handed over and not mapped. -/
theorem peek_unmapped_large : allocate oneRegion largeKernel = some largeLayout ∧
    ∃ m', Builds largeKernel largeLayout (fun _ => 0) m' ∧
      InHandoff plainStatics largeLayout 0x206000 ∧
      walk m' (largeLayout.page_tab.setWidth 64) 0x206000 = none ∧
      ¬ HandoffMapped plainStatics largeLayout m' := by
  have hin : InHandoff plainStatics largeLayout 0x206000 := peek_inHandoff plainStatics largeLayout
  have hnone : walk (built largeKernel largeLayout (fun _ => 0))
      (largeLayout.page_tab.setWidth 64) 0x206000#64 = none :=
    walk_built_unmapped regular_large.page_tab_dvd (by decide) (by decide) (by decide)
  refine ⟨allocate_large, _, regular_large.builds _, hin, hnone, ?_⟩
  intro hm
  exact absurd (hnone.symm.trans (hm _ hin)) (by simp)

theorem handoffMapped_iff_large :
    (∀ m m', Builds largeKernel largeLayout m m' → HandoffMapped plainStatics largeLayout m') ↔
      (0x200000 + 6 * 4096) % 2 ^ 32 + 4096 ≤ 2 ^ 21 :=
  (handoffMapped_iff (h := largeKernel)
    (e := { base := 0x100000, len := 0x700000, type := 1, attrs := 1 }) plainStatics
    (by decide : firstFit _ oneRegion = _) (by decide)
    ⟨_, _, regular_large.builds (fun _ => 0)⟩ (by decide)).2

end Ziemniak.Stage2
