import Ziemniak.BareMetal.Paging
import Ziemniak.Stage2.PageTables

/-! # What the tables translate

The page walk through the tables that `buildTables` leaves in memory.  The ten tables are one
array of 5120 slots of eight bytes (`slot`), and the stores of the three parts name each slot at
most once when the image fits its page table (`slots_nodup`).  `TablesAt` says what every slot
holds; it only looks at the forty kilobytes of the tables, so it survives stores elsewhere
(`TablesAt.congr`).

`TablesAt.walk_eq` computes the walk of every canonical address: the first two megabytes, the
kernel pages and the stack pages are mapped and nothing else is. -/

namespace Ziemniak.Stage2

open BareMetal BareMetal.Paging

/-! ### Slots -/

/-- Address of the slot number `s` of the table array at `t`. -/
def slot (t : BitVec 32) (s : ℕ) : ℕ := (t + BitVec.ofNat 32 (8 * s)).toNat

theorem slot_eq (t : BitVec 32) (s : ℕ) : slot t s = (t.toNat + 8 * s) % 2 ^ 32 := by
  simp [slot]

theorem entryPtr_eq_slot (t : BitVec 32) (a i : ℕ) :
    (entryPtr t a i).toNat = slot t (512 * a + i) := by
  unfold entryPtr slot
  rw [Nat.mul_add, ← Nat.mul_assoc]

theorem slot_inj {t : BitVec 32} {s s' : ℕ} (hs : s < 2 ^ 29) (hs' : s' < 2 ^ 29)
    (h : slot t s = slot t s') : s = s' := by
  have := t.isLt
  rw [slot_eq, slot_eq] at h
  omega

section aligned

variable {t : BitVec 32} (ht : 4096 ∣ t.toNat)

include ht

theorem slot_dvd (s : ℕ) : 8 ∣ slot t s := by
  rw [slot_eq]; omega

theorem slot_add (a : ℕ) {i : ℕ} (hi : i < 512) :
    slot t (512 * a) + 8 * i = slot t (512 * a + i) := by
  rw [slot_eq, slot_eq]; omega

theorem entryPtr_dvd (a : ℕ) : 4096 ∣ (entryPtr t a 0).toNat := by
  rw [entryPtr_eq_slot, slot_eq]; omega

end aligned

/-- Stores to slots, by number. -/
def slotStores (t : BitVec 32) (l : List (ℕ × BitVec 64)) : List (ℕ × BitVec 64) :=
  l.map (fun s => (slot t s.1, s.2))

theorem slotStores_fst (t : BitVec 32) (l : List (ℕ × BitVec 64)) :
    (slotStores t l).map Prod.fst = (l.map Prod.fst).map (slot t) := by
  simp [slotStores]

section stores

variable {t : BitVec 32} (ht : 4096 ∣ t.toNat) {l : List (ℕ × BitVec 64)}
  (hl : ∀ s ∈ l.map Prod.fst, s < 2 ^ 29)

include ht

theorem slotStores_aligned : Aligned (slotStores t l) := by
  intro w hw
  obtain ⟨s, -, rfl⟩ := List.mem_map.mp hw
  exact slot_dvd ht s.1

include hl

theorem read_slot_of_not_mem {m : Mem} {s : ℕ} (hs : s < 2 ^ 29) (h : s ∉ l.map Prod.fst) :
    read64 (writeAll m (slotStores t l)) (slot t s) = read64 m (slot t s) := by
  apply read64_writeAll_of_not_mem (slotStores_aligned ht) (slot_dvd ht s)
  rw [slotStores_fst, List.mem_map]
  rintro ⟨s', hs', he⟩
  exact h (slot_inj (hl s' hs') hs he ▸ hs')

theorem read_slot_of_mem {m : Mem} {w : ℕ × BitVec 64} (hnd : (l.map Prod.fst).Nodup)
    (h : w ∈ l) : read64 (writeAll m (slotStores t l)) (slot t w.1) = w.2 := by
  apply read64_writeAll_of_mem (w := (slot t w.1, w.2)) (slotStores_aligned ht)
  · rw [slotStores_fst]
    exact hnd.map_on (fun s hs s' hs' he => slot_inj (hl s hs) (hl s' hs') he)
  · exact List.mem_map_of_mem h

end stores

/-! ### The slots that are stored -/

def linkSlots (t : BitVec 32) : List (ℕ × BitVec 64) :=
  (links t).map (fun s => (512 * s.1 + s.2.1, s.2.2.word))

def kernelSlots (lay : Layout) : List (ℕ × BitVec 64) :=
  (List.range (pageCnt (lay.pages - lay.load_buf)).toNat).map (fun i =>
    (512 * PTE_KER + i, (genPml4ePdpePte (kernelFrame lay (BitVec.ofNat 32 i))).word))

def stackSlots (h : KernelHeader) (lay : Layout) : List (ℕ × BitVec 64) :=
  (List.range (stackRounds h)).map (fun j =>
    (512 * PTE_STA + (511 - j),
      (genPml4ePdpePte (stackFrame lay (BitVec.ofNat 32 (511 - j)))).word))

def slots (h : KernelHeader) (lay : Layout) : List (ℕ × BitVec 64) :=
  linkSlots lay.page_tab ++ kernelSlots lay ++ stackSlots h lay

theorem linkStores_eq (t : BitVec 32) : linkStores t = slotStores t (linkSlots t) := by
  unfold linkStores slotStores linkSlots
  simp only [List.map_map, Function.comp_def, entryPtr_eq_slot]

theorem kernelStores_eq (lay : Layout) :
    kernelStores lay = slotStores lay.page_tab (kernelSlots lay) := by
  unfold kernelStores slotStores kernelSlots
  simp only [List.map_map, Function.comp_def, entryPtr_eq_slot]

theorem stackStores_eq (h : KernelHeader) (lay : Layout) :
    stackStores h lay = slotStores lay.page_tab (stackSlots h lay) := by
  unfold stackStores slotStores stackSlots
  simp only [List.map_map, Function.comp_def, entryPtr_eq_slot]

theorem tableStores_eq (h : KernelHeader) (lay : Layout) :
    tableStores h lay = slotStores lay.page_tab (slots h lay) := by
  unfold tableStores slots
  rw [linkStores_eq, kernelStores_eq, stackStores_eq]
  unfold slotStores
  rw [List.map_append, List.map_append]

theorem linkSlots_fst (t : BitVec 32) :
    (linkSlots t).map Prod.fst = [511, 256, 0, 1022, 1023, 1024, 1536, 2048, 3584, 3071] := by
  simp [linkSlots, links, PML4E, PDPE_T, PDPE_M, PDPE_B, PDE_KER, PDE_LOW, PDE_STA]

theorem linkSlots_lt {s : ℕ} (hs : s ∈ [511, 256, 0, 1022, 1023, 1024, 1536, 2048, 3584, 3071]) :
    s < 4096 := by
  revert s
  decide

theorem kernelSlots_fst (lay : Layout) : (kernelSlots lay).map Prod.fst =
    (List.range (pageCnt (lay.pages - lay.load_buf)).toNat).map (4096 + ·) := by
  simp [kernelSlots, PTE_KER, Function.comp_def]

theorem stackSlots_fst (h : KernelHeader) (lay : Layout) : (stackSlots h lay).map Prod.fst =
    (List.range (stackRounds h)).map (fun j => 4608 + (511 - j)) := by
  simp [stackSlots, PTE_STA, Function.comp_def]

theorem stackRounds_le (h : KernelHeader) : stackRounds h ≤ 511 := by
  unfold stackRounds
  split_ifs <;> omega

theorem mem_slots_fst {h : KernelHeader} {lay : Layout} {s : ℕ} :
    s ∈ (slots h lay).map Prod.fst ↔
      s ∈ [511, 256, 0, 1022, 1023, 1024, 1536, 2048, 3584, 3071] ∨
      (4096 ≤ s ∧ s < 4096 + (pageCnt (lay.pages - lay.load_buf)).toNat) ∨
      (5119 < s + stackRounds h ∧ s ≤ 5119) := by
  have hn := stackRounds_le h
  unfold slots
  rw [List.map_append, List.map_append, linkSlots_fst, kernelSlots_fst, stackSlots_fst,
    List.mem_append, List.mem_append, or_assoc]
  refine or_congr_right (or_congr ?_ ?_)
  · simp only [List.mem_map, List.mem_range]
    constructor
    · rintro ⟨i, hi, rfl⟩; omega
    · rintro ⟨h1, h2⟩; exact ⟨s - 4096, by omega, by omega⟩
  · simp only [List.mem_map, List.mem_range]
    constructor
    · rintro ⟨j, hj, rfl⟩; omega
    · rintro ⟨h1, h2⟩; exact ⟨5119 - s, by omega, by omega⟩

/-- With at most 512 kernel pages no slot is stored twice. -/
theorem slots_nodup {h : KernelHeader} {lay : Layout}
    (hcnt : (pageCnt (lay.pages - lay.load_buf)).toNat ≤ 512) :
    ((slots h lay).map Prod.fst).Nodup := by
  have hn := stackRounds_le h
  unfold slots
  rw [List.map_append, List.map_append, linkSlots_fst, kernelSlots_fst, stackSlots_fst]
  refine List.nodup_append.mpr ⟨List.nodup_append.mpr ⟨by decide, ?_, ?_⟩, ?_, ?_⟩
  · exact List.nodup_range.map_on (fun _ _ _ _ he => Nat.add_left_cancel he)
  · intro a ha b hb
    obtain ⟨i, -, rfl⟩ := List.mem_map.mp hb
    have := linkSlots_lt ha
    omega
  · apply List.nodup_range.map_on
    intro i hi j hj he
    rw [List.mem_range] at hi hj
    omega
  · intro a ha b hb
    obtain ⟨j, -, rfl⟩ := List.mem_map.mp hb
    have : a < 4608 := by
      cases List.mem_append.mp ha with
      | inl ha => exact lt_trans (linkSlots_lt ha) (by norm_num)
      | inr ha =>
          obtain ⟨i, hi, rfl⟩ := List.mem_map.mp ha
          rw [List.mem_range] at hi
          omega
    omega

theorem built_high {h : KernelHeader} {lay : Layout} {m : Mem} (ht : 4096 ∣ lay.page_tab.toNat)
    (hbuf : lay.buf.toNat < 2 ^ 32) {x : ℕ} (hx : 2 ^ 32 ≤ x) : built h lay m x = m x := by
  unfold built
  rw [tableStores_eq, writeAll_of_forall]
  · unfold fill
    rw [if_neg (by omega)]
  · intro w hw
    obtain ⟨s, -, rfl⟩ := List.mem_map.mp hw
    have hd := slot_dvd ht s.1
    have hlt : slot lay.page_tab s.1 < 2 ^ 32 := BitVec.isLt _
    simp only
    omega

/-! ### A kernel that fits -/

/-- The image fits its page table, the stack its own, and the allocation lies below 4 GiB. -/
structure Regular (h : KernelHeader) (lay : Layout) : Prop
    extends Placed lay (imageSize h).toNat h.stack_size.toNat where
  buf_lt : lay.buf.toNat < 2 ^ 32
  image_le : (imageSize h).toNat ≤ 512 * 4096
  stack_le : h.stack_size.toNat ≤ 511 * 4096

namespace Regular

variable {h : KernelHeader} {lay : Layout} (R : Regular h lay)

include R

theorem page_tab_eq : lay.page_tab.toNat = lay.pages.toNat := by
  have h1 := R.stack_eq
  have h2 := R.buf_eq
  have h3 := R.buf_lt
  unfold Layout.page_tab
  rw [BitVec.toNat_setWidth]
  omega

theorem page_tab_dvd : 4096 ∣ lay.page_tab.toNat := by
  rw [R.page_tab_eq]; exact R.pages_aligned

theorem kernelCnt : 4096 * (pageCnt (lay.pages - lay.load_buf)).toNat =
    roundUp 4096 (imageSize h).toNat := by
  have h1 := R.pages_eq
  have h2 := R.image_le
  have h3 := lay.pages.isLt
  rw [pageCnt_toNat, pageUp_toNat, BitVec.toNat_sub]
  rw [roundUp_page] at h1 ⊢
  omega

theorem kernelCnt_le : (pageCnt (lay.pages - lay.load_buf)).toNat ≤ 512 := by
  have h1 := R.kernelCnt
  have h2 := R.image_le
  rw [roundUp_page] at h1
  omega

theorem stackCnt : 4096 * stackRounds h = roundUp 4096 h.stack_size.toNat := by
  have h1 := R.stack_le
  unfold stackRounds
  rw [pageCnt_toNat, pageUp_toNat, roundUp_page]
  split_ifs <;> omega

end Regular

/-! ### The content of the tables -/

/-- The memory at the tables: what was stored in each slot, and zero in the others. -/
structure TablesAt (h : KernelHeader) (lay : Layout) (m : Mem) : Prop where
  stored : ∀ w ∈ slots h lay, read64 m (slot lay.page_tab w.1) = w.2
  empty : ∀ s < 5120, s ∉ (slots h lay).map Prod.fst → read64 m (slot lay.page_tab s) = 0

section content

variable {h : KernelHeader} {lay : Layout} (R : Regular h lay)

include R

theorem Regular.slots_lt : ∀ s ∈ (slots h lay).map Prod.fst, s < 5120 := by
  intro s hs
  have hk := R.kernelCnt_le
  rcases mem_slots_fst.mp hs with hs | hs | hs
  · exact lt_trans (linkSlots_lt hs) (by norm_num)
  · omega
  · omega

theorem Regular.slot_eq {s : ℕ} (hs : s < 5120) :
    slot lay.page_tab s = lay.pages.toNat + 8 * s := by
  have h1 := R.stack_eq
  have h2 := R.buf_eq
  have h3 := R.buf_lt
  rw [Stage2.slot_eq, R.page_tab_eq]
  omega

theorem built_tablesAt (m : Mem) : TablesAt h lay (built h lay m) := by
  have hlt : ∀ s ∈ (slots h lay).map Prod.fst, s < 2 ^ 29 := by
    intro s hs
    exact lt_trans (R.slots_lt s hs) (by norm_num)
  constructor
  · intro w hw
    unfold built
    rw [tableStores_eq]
    exact read_slot_of_mem R.page_tab_dvd hlt (slots_nodup R.kernelCnt_le) hw
  · intro s hs hns
    unfold built
    rw [tableStores_eq, read_slot_of_not_mem R.page_tab_dvd hlt (by omega) hns]
    apply read64_zero
    intro x hx hx'
    rw [R.slot_eq hs] at hx hx'
    have h1 := R.stack_eq
    have h2 := R.buf_eq
    have h3 := R.buf_lt
    exact if_pos ⟨by omega, by omega⟩

/-- Stores outside the tables keep them. -/
theorem TablesAt.congr {m m' : Mem} (T : TablesAt h lay m)
    (hm : ∀ x, lay.pages.toNat ≤ x → x < lay.stack.toNat → m' x = m x) : TablesAt h lay m' := by
  have hread : ∀ s < 5120, read64 m' (slot lay.page_tab s) = read64 m (slot lay.page_tab s) := by
    intro s hs
    have h1 := R.stack_eq
    apply read64_congr
    intro x hx hx'
    rw [R.slot_eq hs] at hx hx'
    exact hm x (by omega) (by omega)
  constructor
  · intro w hw
    rw [hread _ (R.slots_lt _ (List.mem_map_of_mem hw))]
    exact T.stored w hw
  · intro s hs hns
    rw [hread s hs]
    exact T.empty s hs hns

end content

/-! ### Following the links -/

section links

variable {t : BitVec 32} (ht : 4096 ∣ t.toNat) (m : Mem) (v : BitVec 64)

include ht

theorem link_entry (a : ℕ) : present (genPml4ePdpePte (entryPtr t a 0)).word = true ∧
    pageSize (genPml4ePdpePte (entryPtr t a 0)).word = false ∧
    frame (genPml4ePdpePte (entryPtr t a 0)).word = slot t (512 * a) := by
  have hw := genPml4ePdpePte_word (entryPtr t a 0)
  have hd := entryPtr_dvd ht a
  have hlt := (entryPtr t a 0).isLt
  rw [show slot t (512 * a) = (entryPtr t a 0).toNat from (entryPtr_eq_slot t a 0).symm]
  refine ⟨?_, ?_, ?_⟩
  · simp only [present, hw, beq_iff_eq]; omega
  · simp only [pageSize, hw, beq_eq_false_iff_ne]; omega
  · simp only [frame, hw]; omega

theorem walkPml4e_link (a : ℕ) : walkPml4e m (genPml4ePdpePte (entryPtr t a 0)).word v =
    walkPdpte m (read64 m (slot t (512 * a + index 30 v))) v := by
  obtain ⟨h1, h2, h3⟩ := link_entry ht a
  simp [walkPml4e, h1, h2, h3, slot_add ht a (index_lt 30 v)]

theorem walkPdpte_link (a : ℕ) : walkPdpte m (genPml4ePdpePte (entryPtr t a 0)).word v =
    walkPde m (read64 m (slot t (512 * a + index 21 v))) v := by
  obtain ⟨h1, h2, h3⟩ := link_entry ht a
  simp [walkPdpte, h1, h2, h3, slot_add ht a (index_lt 21 v)]

theorem walkPde_link (a : ℕ) : walkPde m (genPml4ePdpePte (entryPtr t a 0)).word v =
    walkPte (read64 m (slot t (512 * a + index 12 v))) v := by
  obtain ⟨h1, h2, h3⟩ := link_entry ht a
  simp [walkPde, h1, h2, h3, slot_add ht a (index_lt 12 v)]

theorem walk_page_tab : walk m (t.setWidth 64) v =
    if Canonical v then walkPml4e m (read64 m (slot t (512 * PML4E + index 39 v))) v else none := by
  have hf : frame (t.setWidth 64) = slot t (512 * PML4E) := by
    have := t.isLt
    unfold frame PML4E
    simp only [slot_eq, BitVec.toNat_setWidth]
    omega
  unfold walk
  rw [hf, slot_add ht PML4E (index_lt 39 v)]

end links

/-- The large page at the bottom maps the first two megabytes to themselves. -/
theorem walkPde_low (m : Mem) (v : BitVec 64) :
    walkPde m (genPde 0 1).word v = some (v.toNat % 2 ^ 21) := by
  have hw : (genPde 0 1).word = 131#64 := rfl
  rw [hw]
  simp [walkPde, present, pageSize, page]

theorem walkPte_small (p : BitVec 32) (v : BitVec 64) :
    walkPte (genPml4ePdpePte p).word v = some (p.toNat / 4096 * 4096 + v.toNat % 4096) := by
  have hw := genPml4ePdpePte_word p
  have hlt := p.isLt
  have h1 : present (genPml4ePdpePte p).word = true := by
    simp only [present, hw, beq_iff_eq]; omega
  have h2 : frame (genPml4ePdpePte p).word = p.toNat / 4096 * 4096 := by
    simp only [frame, hw]; omega
  simp [walkPte, h1, h2, page_small]

/-! ### The walk of every address -/

/-- What the loaded tables translate: the first two megabytes to themselves, kernel page `i` to
`kernelFrame lay i`, stack page `i` of the last table to `stackFrame lay i`. -/
def translation (h : KernelHeader) (lay : Layout) (v : BitVec 64) : Option ℕ :=
  if index 39 v = 0 ∧ index 30 v = 0 ∧ index 21 v = 0 then some (v.toNat % 2 ^ 21)
  else if index 39 v = 511 ∧ index 30 v = 510 ∧ index 21 v = 0 ∧
      index 12 v < (pageCnt (lay.pages - lay.load_buf)).toNat then
    some ((kernelFrame lay (BitVec.ofNat 32 (index 12 v))).toNat / 4096 * 4096 + v.toNat % 4096)
  else if index 39 v = 511 ∧ index 30 v = 511 ∧ index 21 v = 511 ∧
      511 < index 12 v + stackRounds h then
    some ((stackFrame lay (BitVec.ofNat 32 (index 12 v))).toNat / 4096 * 4096 + v.toNat % 4096)
  else none

namespace TablesAt

variable {h : KernelHeader} {lay : Layout} {m : Mem} (T : TablesAt h lay m) (R : Regular h lay)

include T

theorem link {a i : ℕ} {p : Page} (hm : (a, i, p) ∈ links lay.page_tab) :
    read64 m (slot lay.page_tab (512 * a + i)) = p.word := by
  apply T.stored (512 * a + i, p.word)
  unfold slots
  simp only [List.mem_append]
  exact Or.inl (Or.inl (List.mem_map_of_mem hm))

theorem kernel_stored {i : ℕ} (hi : i < (pageCnt (lay.pages - lay.load_buf)).toNat) :
    read64 m (slot lay.page_tab (512 * PTE_KER + i)) =
      (genPml4ePdpePte (kernelFrame lay (BitVec.ofNat 32 i))).word := by
  apply T.stored (512 * PTE_KER + i, _)
  unfold slots
  simp only [List.mem_append]
  exact Or.inl (Or.inr (List.mem_map_of_mem (List.mem_range.mpr hi)))

theorem stack_stored {i : ℕ} (hi : i ≤ 511) (hn : 511 < i + stackRounds h) :
    read64 m (slot lay.page_tab (512 * PTE_STA + i)) =
      (genPml4ePdpePte (stackFrame lay (BitVec.ofNat 32 i))).word := by
  refine T.stored (512 * PTE_STA + i,
    (genPml4ePdpePte (stackFrame lay (BitVec.ofNat 32 i))).word) ?_
  unfold slots
  simp only [List.mem_append]
  refine Or.inr (List.mem_map.mpr ⟨511 - i, List.mem_range.mpr (by omega), ?_⟩)
  simp only [Nat.sub_sub_self hi]

theorem not_stored {s : ℕ} (hs : s < 5120)
    (hl : s ∉ [511, 256, 0, 1022, 1023, 1024, 1536, 2048, 3584, 3071])
    (hk : ¬ (4096 ≤ s ∧ s < 4096 + (pageCnt (lay.pages - lay.load_buf)).toNat))
    (hn : ¬ (5119 < s + stackRounds h ∧ s ≤ 5119)) : read64 m (slot lay.page_tab s) = 0 := by
  apply T.empty s hs
  rw [mem_slots_fst]
  tauto

theorem unlinked {s : ℕ} (hs : s < 4096)
    (hl : s ∉ [511, 256, 0, 1022, 1023, 1024, 1536, 2048, 3584, 3071]) :
    read64 m (slot lay.page_tab s) = 0 := by
  have hn := stackRounds_le h
  exact T.not_stored (by omega) hl (by omega) (by omega)

/-! The two page tables. -/

theorem walkPte_ker (v : BitVec 64) :
    walkPte (read64 m (slot lay.page_tab (512 * PTE_KER + index 12 v))) v =
      if index 12 v < (pageCnt (lay.pages - lay.load_buf)).toNat then
        some ((kernelFrame lay (BitVec.ofNat 32 (index 12 v))).toNat / 4096 * 4096 +
          v.toNat % 4096)
      else none := by
  have hi := index_lt 12 v
  have hn := stackRounds_le h
  split_ifs with hc
  · rw [T.kernel_stored hc, walkPte_small]
  · have hs : 512 * PTE_KER + index 12 v ∉
        [511, 256, 0, 1022, 1023, 1024, 1536, 2048, 3584, 3071] := by
      intro hm
      have := linkSlots_lt hm
      unfold PTE_KER at this
      omega
    unfold PTE_KER at hs ⊢
    rw [T.not_stored (by omega) hs (by omega) (by omega)]
    rfl

theorem walkPte_sta (hk : (pageCnt (lay.pages - lay.load_buf)).toNat ≤ 512) (v : BitVec 64) :
    walkPte (read64 m (slot lay.page_tab (512 * PTE_STA + index 12 v))) v =
      if 511 < index 12 v + stackRounds h then
        some ((stackFrame lay (BitVec.ofNat 32 (index 12 v))).toNat / 4096 * 4096 +
          v.toNat % 4096)
      else none := by
  have hi := index_lt 12 v
  split_ifs with hc
  · rw [T.stack_stored (by omega) hc, walkPte_small]
  · have hs : 512 * PTE_STA + index 12 v ∉
        [511, 256, 0, 1022, 1023, 1024, 1536, 2048, 3584, 3071] := by
      intro hm
      have := linkSlots_lt hm
      unfold PTE_STA at this
      omega
    unfold PTE_STA at hs ⊢
    rw [T.not_stored (by omega) hs (by omega) (by omega)]
    rfl

include R

/-! The directories and directory-pointer tables above them. -/

theorem walkPde_ker (v : BitVec 64) :
    walkPde m (read64 m (slot lay.page_tab (512 * PDE_KER + index 21 v))) v =
      if index 21 v = 0 then
        walkPte (read64 m (slot lay.page_tab (512 * PTE_KER + index 12 v))) v
      else none := by
  have hi := index_lt 21 v
  split_ifs with hc
  · rw [hc, T.link (by simp [links]) (p := genPde (entryPtr lay.page_tab PTE_KER 0) 0),
      genPde_zero, walkPde_link R.page_tab_dvd]
  · unfold PDE_KER
    rw [T.unlinked (by omega) (by simp; omega)]
    rfl

theorem walkPde_sta (v : BitVec 64) :
    walkPde m (read64 m (slot lay.page_tab (512 * PDE_STA + index 21 v))) v =
      if index 21 v = 511 then
        walkPte (read64 m (slot lay.page_tab (512 * PTE_STA + index 12 v))) v
      else none := by
  have hi := index_lt 21 v
  split_ifs with hc
  · rw [hc, T.link (by simp [links]) (p := genPde (entryPtr lay.page_tab PTE_STA 0) 0),
      genPde_zero, walkPde_link R.page_tab_dvd]
  · unfold PDE_STA
    rw [T.unlinked (by omega) (by simp; omega)]
    rfl

theorem walkPdpte_top (v : BitVec 64) :
    walkPdpte m (read64 m (slot lay.page_tab (512 * PDPE_T + index 30 v))) v =
      if index 30 v = 510 then
        walkPde m (read64 m (slot lay.page_tab (512 * PDE_KER + index 21 v))) v
      else if index 30 v = 511 then
        walkPde m (read64 m (slot lay.page_tab (512 * PDE_STA + index 21 v))) v
      else none := by
  have hi := index_lt 30 v
  split_ifs with h1 h2
  · rw [h1, T.link (by simp [links]) (p := genPml4ePdpePte (entryPtr lay.page_tab PDE_KER 0)),
      walkPdpte_link R.page_tab_dvd]
  · rw [h2, T.link (by simp [links]) (p := genPml4ePdpePte (entryPtr lay.page_tab PDE_STA 0)),
      walkPdpte_link R.page_tab_dvd]
  · unfold PDPE_T
    rw [T.unlinked (by omega) (by simp; omega)]
    rfl

/-- The peek window starts unmapped. -/
theorem walkPdpte_mid (v : BitVec 64) :
    walkPdpte m (read64 m (slot lay.page_tab (512 * PDPE_M + index 30 v))) v = none := by
  have hi := index_lt 30 v
  have hi' := index_lt 21 v
  by_cases hc : index 30 v = 0
  · rw [hc, T.link (by simp [links]) (p := genPml4ePdpePte (entryPtr lay.page_tab PDE_MID 0)),
      walkPdpte_link R.page_tab_dvd]
    unfold PDE_MID
    rw [T.unlinked (by omega) (by simp; omega)]
    rfl
  · unfold PDPE_M
    rw [T.unlinked (by omega) (by simp; omega)]
    rfl

theorem walkPdpte_low (v : BitVec 64) :
    walkPdpte m (read64 m (slot lay.page_tab (512 * PDPE_B + index 30 v))) v =
      if index 30 v = 0 ∧ index 21 v = 0 then some (v.toNat % 2 ^ 21) else none := by
  have hi := index_lt 30 v
  have hi' := index_lt 21 v
  by_cases h1 : index 30 v = 0
  · rw [h1, T.link (by simp [links]) (p := genPml4ePdpePte (entryPtr lay.page_tab PDE_LOW 0)),
      walkPdpte_link R.page_tab_dvd]
    by_cases h2 : index 21 v = 0
    · rw [h2, T.link (by simp [links]) (p := genPde 0 1), walkPde_low, if_pos ⟨rfl, rfl⟩]
    · unfold PDE_LOW
      rw [T.unlinked (by omega) (by simp; omega), if_neg (by tauto)]
      rfl
  · unfold PDPE_B
    rw [T.unlinked (by omega) (by simp; omega), if_neg (by tauto)]
    rfl

/-- **The translation of every canonical address.** -/
theorem walk_eq {v : BitVec 64} (hv : Canonical v) :
    walk m (lay.page_tab.setWidth 64) v = translation h lay v := by
  have hi := index_lt 39 v
  have hk := R.kernelCnt_le
  rw [walk_page_tab R.page_tab_dvd, if_pos hv, translation]
  by_cases h1 : index 39 v = 511
  · rw [h1, T.link (by simp [links]) (p := genPml4ePdpePte (entryPtr lay.page_tab PDPE_T 0)),
      walkPml4e_link R.page_tab_dvd, T.walkPdpte_top R, T.walkPde_ker R, T.walkPde_sta R,
      T.walkPte_ker, T.walkPte_sta hk]
    by_cases hker : index 30 v = 510
    · simp [hker, ite_and]
    by_cases hsta : index 30 v = 511
    · simp [hsta, ite_and]
    · simp [hker, hsta]
  by_cases h2 : index 39 v = 256
  · rw [h2, T.link (by simp [links]) (p := genPml4ePdpePte (entryPtr lay.page_tab PDPE_M 0)),
      walkPml4e_link R.page_tab_dvd, T.walkPdpte_mid R]
    simp
  by_cases h3 : index 39 v = 0
  · rw [h3, T.link (by simp [links]) (p := genPml4ePdpePte (entryPtr lay.page_tab PDPE_B 0)),
      walkPml4e_link R.page_tab_dvd, T.walkPdpte_low R]
    simp
  · unfold PML4E
    rw [T.unlinked (by omega) (by simp; omega)]
    simp [h1, h3]

end TablesAt

/-! ### The translation in addresses -/

/-- Address of the kernel image, the origin of the kernel's linker script. -/
def kernelBase : ℕ := 0xFFFFFFFF80000000

namespace Regular

variable {h : KernelHeader} {lay : Layout} (R : Regular h lay)

include R

theorem kernelFrame_toNat {i : ℕ} (hi : i < (pageCnt (lay.pages - lay.load_buf)).toNat) :
    (kernelFrame lay (BitVec.ofNat 32 i)).toNat = lay.load_buf.toNat + 4096 * i := by
  have h0 := R.kernelCnt
  have h1 := R.pages_eq
  have h2 := R.stack_eq
  have h3 := R.buf_eq
  have h4 := R.buf_lt
  rw [roundUp_page] at h0 h1
  unfold kernelFrame
  simp only [BitVec.toNat_add, BitVec.toNat_mul, BitVec.toNat_setWidth, BitVec.toNat_ofNat,
    BitVec.ofNat_eq_ofNat]
  omega

theorem stackFrame_toNat {i : ℕ} (hi : i ≤ 511) (hn : 511 < i + stackRounds h) :
    (stackFrame lay (BitVec.ofNat 32 i)).toNat + 4096 * (511 - i) = lay.buf.toNat := by
  have h0 := R.stackCnt
  have h1 := R.buf_eq
  have h2 := R.buf_lt
  rw [roundUp_page] at h0
  unfold stackFrame
  simp only [BitVec.toNat_sub, BitVec.toNat_mul, BitVec.toNat_setWidth, BitVec.toNat_ofNat,
    BitVec.ofNat_eq_ofNat]
  omega

end Regular

section addresses

variable {h : KernelHeader} {lay : Layout} {v : BitVec 64}

theorem translation_low (hv : v.toNat < 2 ^ 21) : translation h lay v = some v.toNat := by
  have h1 : index 39 v = 0 ∧ index 30 v = 0 ∧ index 21 v = 0 := by
    simp only [index]; omega
  unfold translation
  rw [if_pos h1, Nat.mod_eq_of_lt hv]

variable (R : Regular h lay)

include R

theorem translation_kernel (hlo : kernelBase ≤ v.toNat)
    (hhi : v.toNat < kernelBase + roundUp 4096 (imageSize h).toNat) :
    translation h lay v = some (lay.load_buf.toNat + (v.toNat - kernelBase)) := by
  have h0 := R.kernelCnt
  have h1 := R.kernelCnt_le
  rw [roundUp_page] at h0 hhi
  unfold kernelBase at hlo hhi ⊢
  have hi : index 39 v = 511 ∧ index 30 v = 510 ∧ index 21 v = 0 ∧
      index 12 v < (pageCnt (lay.pages - lay.load_buf)).toNat := by
    simp only [index]; omega
  have hp := R.kernelFrame_toNat hi.2.2.2
  have hl := R.load_buf_aligned
  have e : (lay.load_buf.toNat + 4096 * index 12 v) / 4096 * 4096 + v.toNat % 4096 =
      lay.load_buf.toNat + (v.toNat - 18446744071562067968) := by
    simp only [index]; omega
  unfold translation
  rw [if_neg (by omega), if_pos hi, hp, e]

/-- Page `i` of the stack's table holds the frame `511 - i` pages below the end of the
allocation: the last page is the frame that starts at that end. -/
theorem translation_stack (hlo : 2 ^ 64 ≤ v.toNat + roundUp 4096 h.stack_size.toNat) :
    translation h lay v =
      some (roundDown 4096 (lay.buf.toNat - 4096 * (511 - index 12 v)) + v.toNat % 4096) := by
  have h0 := R.stackCnt
  have h1 := R.stack_le
  have hv := v.isLt
  rw [roundUp_page] at h0 hlo
  have hi : index 39 v = 511 ∧ index 30 v = 511 ∧ index 21 v = 511 ∧
      511 < index 12 v + stackRounds h := by
    simp only [index]; omega
  have h12 := index_lt 12 v
  have hf := R.stackFrame_toNat (i := index 12 v) (by omega) hi.2.2.2
  have e : (stackFrame lay (BitVec.ofNat 32 (index 12 v))).toNat / 4096 * 4096 =
      roundDown 4096 (lay.buf.toNat - 4096 * (511 - index 12 v)) := by
    unfold roundDown
    rw [← hf, Nat.add_sub_cancel]
  unfold translation
  rw [if_neg (by omega), if_neg (by omega), if_pos hi, e]

theorem translation_none (hv : Canonical v) (hlow : 2 ^ 21 ≤ v.toNat)
    (hker : v.toNat < kernelBase ∨ kernelBase + roundUp 4096 (imageSize h).toNat ≤ v.toNat)
    (hsta : v.toNat + roundUp 4096 h.stack_size.toNat < 2 ^ 64) : translation h lay v = none := by
  have h0 := R.kernelCnt
  have h1 := R.stackCnt
  have h2 := stackRounds_le h
  unfold Canonical at hv
  unfold kernelBase at hker
  unfold translation
  rw [if_neg, if_neg, if_neg]
  · simp only [index]; omega
  · simp only [index]; omega
  · simp only [index]; omega

end addresses

end Ziemniak.Stage2
