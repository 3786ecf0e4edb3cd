import Ziemniak.Stage2.Loading

/-! # The bounds of the loader's loops

The two loops that fill the page tables of the kernel and the stack, and the loop that loads the
sectors of the image, with a list of the addresses they store to (`mapKernelM`, `mapStackM`,
`loadSectorsM`); forgetting the list leaves the loops of `main`.  None of them checks its bound,
which comes from the disk.

`pageLoopsExact_iff` says for which headers the page loops stay in their tables and fill as many
entries as there are pages, and `imageInside_iff` for which file sizes the sectors stay in the
kernel area and hold the whole file. -/

namespace Ziemniak.Stage2

open BareMetal BareMetal.Paging

/-! ### The page-table loops and their stores -/

/-- `mapKernel` and the entries it stored to. -/
def mapKernelM (fuel : ℕ) (lay : Layout) (page_tab : BitVec 32) (s : Mem × List (BitVec 32)) :
    Option (Mem × List (BitVec 32)) :=
  forUp (pageCnt (lay.pages - lay.load_buf))
    (fun (i : BitVec 32) s =>
      (write64 s.1 (entryPtr page_tab PTE_KER i.toNat).toNat
        (genPml4ePdpePte (kernelFrame lay i)).word, s.2 ++ [entryPtr page_tab PTE_KER i.toNat]))
    fuel 0 s

/-- `mapStack` and the entries it stored to. -/
def mapStackM (fuel : ℕ) (header : KernelHeader) (lay : Layout) (page_tab : BitVec 32)
    (s : Mem × List (BitVec 32)) : Option (Mem × List (BitVec 32)) :=
  forDown (511 - pageCnt header.stack_size)
    (fun (i : BitVec 32) s =>
      (write64 s.1 (entryPtr page_tab PTE_STA i.toNat).toNat
        (genPml4ePdpePte (stackFrame lay i)).word, s.2 ++ [entryPtr page_tab PTE_STA i.toNat]))
    fuel 511 s

theorem mapKernelM_val (fuel : ℕ) (lay : Layout) (page_tab : BitVec 32)
    (s : Mem × List (BitVec 32)) : (mapKernelM fuel lay page_tab s).map Prod.fst =
      mapKernel fuel lay page_tab s.1 :=
  forUp_map Prod.fst (fun _ _ => rfl) fuel 0 s

theorem mapStackM_val (fuel : ℕ) (h : KernelHeader) (lay : Layout) (page_tab : BitVec 32)
    (s : Mem × List (BitVec 32)) : (mapStackM fuel h lay page_tab s).map Prod.fst =
      mapStack fuel h lay page_tab s.1 :=
  forDown_map Prod.fst (fun _ _ => rfl) fuel 511 s

/-! ### Entries of a table -/

/-- The address is that of one of the 512 entries of table `t`. -/
def InTable (page_tab : BitVec 32) (t : ℕ) (a : BitVec 32) : Prop :=
  ∃ i < 512, a = entryPtr page_tab t i

/-- The stores fill `cnt` entries of table `t`: they touch no other table and nothing past the
ten tables, and no entry twice. -/
structure FillsTable (page_tab : BitVec 32) (t cnt : ℕ) (log : List (BitVec 32)) : Prop where
  own : ∀ a ∈ log, InTable page_tab t a
  others : ∀ a ∈ log, ∀ t' < 10, t' ≠ t → ¬ InTable page_tab t' a
  inside : ∀ a ∈ log, (a - page_tab).toNat + 8 ≤ 10 * 4096
  nodup : log.Nodup
  count : log.length = cnt

/-- Table `t` maps what is stored: the indices of `pages` are those of the entries stored, each of
them leads to its frame, and all the other bytes of memory are as they were. -/
structure MapsPages (m m' : Mem) (page_tab : BitVec 32) (t : ℕ) (log : List (BitVec 32))
    (pages : ℕ → Prop) (frameOf : ℕ → BitVec 32) : Prop where
  stored : ∀ i < 512, entryPtr page_tab t i ∈ log ↔ pages i
  maps : ∀ i < 512, pages i → ∀ v, walkPte (read64 m' (entryPtr page_tab t i).toNat) v =
    some ((frameOf i).toNat / 4096 * 4096 + v.toNat % 4096)
  rest : ∀ x, (∀ a ∈ log, x < a.toNat ∨ a.toNat + 8 ≤ x) → m' x = m x

/-- The loop over the kernel's pages ends and maps each of them, and no more. -/
def KernelLoopExact (h : KernelHeader) (lay : Layout) : Prop :=
  ∀ m, ∃ fuel m' log, mapKernelM fuel lay lay.page_tab (m, []) = some (m', log) ∧
    FillsTable lay.page_tab PTE_KER (pageCnt (imageSize h)).toNat log ∧
    MapsPages m m' lay.page_tab PTE_KER log (fun i => i < (pageCnt (imageSize h)).toNat)
      (fun i => kernelFrame lay (BitVec.ofNat 32 i))

/-- The loop over the stack's pages, which fills its table from the end. -/
def StackLoopExact (h : KernelHeader) (lay : Layout) : Prop :=
  ∀ m, ∃ fuel m' log, mapStackM fuel h lay lay.page_tab (m, []) = some (m', log) ∧
    FillsTable lay.page_tab PTE_STA (pageCnt h.stack_size).toNat log ∧
    MapsPages m m' lay.page_tab PTE_STA log (fun i => 511 < i + (pageCnt h.stack_size).toNat)
      (fun i => stackFrame lay (BitVec.ofNat 32 i))

def PageLoopsExact (h : KernelHeader) (lay : Layout) : Prop :=
  KernelLoopExact h lay ∧ StackLoopExact h lay

section entries

variable {page_tab : BitVec 32} {t : ℕ}

theorem entryPtr_sub (page_tab : BitVec 32) {t i : ℕ} (hi : 4096 * t + 8 * i < 2 ^ 32) :
    (entryPtr page_tab t i - page_tab).toNat = 4096 * t + 8 * i := by
  unfold entryPtr
  rw [BitVec.add_comm, BitVec.add_sub_cancel, BitVec.toNat_ofNat, Nat.mod_eq_of_lt hi]

theorem entryPtr_inj {t t' i j : ℕ} (ht : t < 10) (ht' : t' < 10) (hi : i < 512) (hj : j < 512)
    (h : entryPtr page_tab t i = entryPtr page_tab t' j) : t = t' ∧ i = j := by
  have hd : (entryPtr page_tab t i - page_tab).toNat = _ := entryPtr_sub page_tab (by omega)
  rw [h, entryPtr_sub page_tab (by omega)] at hd
  omega

/-- The entry behind the last one lies in another page. -/
theorem entryPtr_512_notIn (page_tab : BitVec 32) {t : ℕ} (ht : t < 10) :
    ¬ InTable page_tab t (entryPtr page_tab t 512) := by
  rintro ⟨i, hi, h⟩
  have hd : (entryPtr page_tab t 512 - page_tab).toNat = _ := entryPtr_sub page_tab (by omega)
  rw [h, entryPtr_sub page_tab (by omega)] at hd
  omega

/-- Stores to distinct indices below 512 fill their table. -/
theorem fillsTable_map (page_tab : BitVec 32) {t : ℕ} (ht : t < 10) {l : List ℕ}
    (hl : ∀ i ∈ l, i < 512) (hnd : l.Nodup) :
    FillsTable page_tab t l.length (l.map (entryPtr page_tab t)) where
  own := by
    intro a ha
    obtain ⟨i, hi, rfl⟩ := List.mem_map.mp ha
    exact ⟨i, hl i hi, rfl⟩
  others := by
    intro a ha t' ht' hne
    obtain ⟨i, hi, rfl⟩ := List.mem_map.mp ha
    rintro ⟨j, hj, h⟩
    exact hne (entryPtr_inj ht ht' (hl i hi) hj h).1.symm
  inside := by
    intro a ha
    obtain ⟨i, hi, rfl⟩ := List.mem_map.mp ha
    have hi' := hl i hi
    rw [entryPtr_sub page_tab (by omega)]
    omega
  nodup := by
    refine List.Nodup.map_on ?_ hnd
    intro i hi j hj h
    exact (entryPtr_inj ht ht (hl i hi) (hl j hj) h).2
  count := List.length_map ..

/-- Entries stored once each map their frames. -/
theorem mapsPages_map (ht : 4096 ∣ page_tab.toNat) (hlt : t < 10) {l : List ℕ}
    (hl : ∀ i ∈ l, i < 512) (hnd : l.Nodup) (pages : ℕ → Prop) (hp : ∀ i < 512, i ∈ l ↔ pages i)
    (frameOf : ℕ → BitVec 32) (m : Mem) :
    MapsPages m (writeAll m (slotStores page_tab (l.map (fun i =>
        (512 * t + i, (genPml4ePdpePte (frameOf i)).word))))) page_tab t
      (l.map (entryPtr page_tab t)) pages frameOf where
  stored := by
    intro i hi
    rw [← hp i hi]
    constructor
    · intro hm
      obtain ⟨j, hj, he⟩ := List.mem_map.mp hm
      obtain ⟨-, rfl⟩ := entryPtr_inj hlt hlt (hl j hj) hi he
      exact hj
    · exact List.mem_map_of_mem
  maps := by
    intro i hi hpage v
    have hfst : (l.map (fun i => (512 * t + i, (genPml4ePdpePte (frameOf i)).word))).map Prod.fst =
        l.map (512 * t + ·) := by rw [List.map_map]; rfl
    have hslots : ∀ s ∈ l.map (512 * t + ·), s < 2 ^ 29 := by
      intro s hs
      obtain ⟨j, hj, rfl⟩ := List.mem_map.mp hs
      have := hl j hj
      omega
    have hmem : (512 * t + i, (genPml4ePdpePte (frameOf i)).word) ∈
        l.map (fun i => (512 * t + i, (genPml4ePdpePte (frameOf i)).word)) :=
      List.mem_map_of_mem ((hp i hi).mpr hpage)
    have hread := read_slot_of_mem ht (by rw [hfst]; exact hslots) (m := m)
      (by rw [hfst]; exact hnd.map_on (fun _ _ _ _ he => Nat.add_left_cancel he)) hmem
    rw [entryPtr_eq_slot, hread, walkPte_small]
  rest := by
    intro x hx
    apply writeAll_of_forall
    intro w hw
    obtain ⟨s, hs, rfl⟩ := List.mem_map.mp hw
    obtain ⟨i, hi, rfl⟩ := List.mem_map.mp hs
    simp only [← entryPtr_eq_slot]
    exact hx _ (List.mem_map_of_mem hi)

end entries

/-! ### What the loops store to -/

theorem rounds_entries (page_tab : BitVec 32) (t : ℕ) (v : BitVec 32 → BitVec 64) {l : List ℕ}
    (hl : ∀ j ∈ l, j < 2 ^ 32) (m : Mem) :
    (rounds (fun (i : BitVec 32) (s : Mem × List (BitVec 32)) =>
      (write64 s.1 (entryPtr page_tab t i.toNat).toNat (v i),
        s.2 ++ [entryPtr page_tab t i.toNat])) l (m, [])).2 = l.map (entryPtr page_tab t) := by
  rw [rounds_log (fun (i : BitVec 32) m => write64 m (entryPtr page_tab t i.toNat).toNat (v i))
    (fun i => entryPtr page_tab t i.toNat), List.nil_append]
  apply List.map_congr_left
  intro j hj
  rw [BitVec.toNat_ofNat, Nat.mod_eq_of_lt (hl j hj)]

section loops

variable {h : KernelHeader} {lay : Layout} {m : Mem} {log : List (BitVec 32)}

theorem mapKernelM_iff : (∃ fuel m', mapKernelM fuel lay lay.page_tab (m, []) = some (m', log)) ↔
    (pageCnt (lay.pages - lay.load_buf)).toNat < 2 ^ 32 ∧
      log = (List.range (pageCnt (lay.pages - lay.load_buf)).toNat).map
        (entryPtr lay.page_tab PTE_KER) := by
  rw [exists_comm]
  unfold mapKernelM
  simp only [forUp_iff (by norm_num : 32 ≤ 64), exists_and_left]
  apply and_congr_right
  intro hlt
  have hlog := rounds_entries lay.page_tab PTE_KER
    (fun i => (genPml4ePdpePte (kernelFrame lay i)).word)
    (l := List.range (pageCnt (lay.pages - lay.load_buf)).toNat)
    (fun j hj => lt_trans (List.mem_range.mp hj) hlt) m
  rw [List.range_eq_range'] at hlog ⊢
  rw [← hlog]
  constructor
  · rintro ⟨m', he⟩
    exact congrArg Prod.snd he
  · rintro rfl
    exact ⟨_, Prod.mk.eta⟩

theorem mapStackM_iff :
    (∃ fuel m', mapStackM fuel h lay lay.page_tab (m, []) = some (m', log)) ↔
      log = ((List.range (stackRounds h)).map (fun j => 511 - j)).map
        (entryPtr lay.page_tab PTE_STA) := by
  rw [exists_comm]
  unfold mapStackM
  have h511 : (511 : BitVec 32).toNat = 511 := rfl
  simp only [forDown_iff (by norm_num : 32 ≤ 64), stackRounds_eq]
  have hlog := rounds_entries lay.page_tab PTE_STA
    (fun i => (genPml4ePdpePte (stackFrame lay i)).word)
    (l := (List.range (stackRounds h)).map (fun j => 511 - j)) (by simp; omega) m
  rw [← hlog]
  simp only [h511]
  constructor
  · rintro ⟨m', he⟩
    exact congrArg Prod.snd he
  · rintro rfl
    exact ⟨_, Prod.mk.eta⟩

theorem mapKernelM_mem {fuel : ℕ} {m' : Mem}
    (hrun : mapKernelM fuel lay lay.page_tab (m, []) = some (m', log)) :
    m' = writeAll m (slotStores lay.page_tab (kernelSlots lay)) := by
  have hval := mapKernelM_val fuel lay lay.page_tab (m, [])
  rw [hrun, Option.map_some] at hval
  rw [← kernelStores_eq]
  exact (mapKernel_iff.mp ⟨fuel, hval.symm⟩).2

theorem mapStackM_mem {fuel : ℕ} {m' : Mem}
    (hrun : mapStackM fuel h lay lay.page_tab (m, []) = some (m', log)) :
    m' = writeAll m (slotStores lay.page_tab (stackSlots h lay)) := by
  have hval := mapStackM_val fuel h lay lay.page_tab (m, [])
  rw [hrun, Option.map_some] at hval
  rw [← stackStores_eq]
  exact mapStack_iff.mp ⟨fuel, hval.symm⟩

theorem kernelLoop_iff {b : BitVec 64} (hb : 4096 ∣ b.toNat) :
    KernelLoopExact h (layout h b) ↔ (pageCnt (imageSize h)).toNat ≤ 512 := by
  have hcnt : (pageCnt ((layout h b).pages - (layout h b).load_buf)).toNat =
      (pageCnt (imageSize h)).toNat := by rw [layout_kernelCnt, pageCnt_toNat]
  constructor
  · intro hall
    obtain ⟨fuel, m', log, hrun, hfill, -⟩ := hall (fun _ => 0)
    obtain ⟨-, rfl⟩ := mapKernelM_iff.mp ⟨fuel, m', hrun⟩
    by_contra hlt
    refine entryPtr_512_notIn _ (by decide : PTE_KER < 10) (hfill.own _ ?_)
    exact List.mem_map_of_mem (List.mem_range.mpr (by omega))
  · intro hle m
    have hlt : (pageCnt ((layout h b).pages - (layout h b).load_buf)).toNat < 2 ^ 32 := by omega
    obtain ⟨fuel, m', hrun⟩ := (mapKernelM_iff (m := m)).mpr ⟨hlt, rfl⟩
    have h512 : ∀ i ∈ List.range (pageCnt ((layout h b).pages - (layout h b).load_buf)).toNat,
        i < 512 := by
      intro i hi
      have := List.mem_range.mp hi
      omega
    have hfill := fillsTable_map (layout h b).page_tab (by decide : PTE_KER < 10) h512
      List.nodup_range
    have hmaps := mapsPages_map (layout_page_tab_dvd (h := h) hb) (by decide : PTE_KER < 10) h512
      List.nodup_range (fun i => i < (pageCnt (imageSize h)).toNat)
      (fun i _ => by rw [List.mem_range, hcnt])
      (fun i => kernelFrame (layout h b) (BitVec.ofNat 32 i)) m
    rw [List.length_range, hcnt] at hfill
    obtain rfl := mapKernelM_mem hrun
    refine ⟨fuel, _, _, hrun, ?_, hmaps⟩
    rw [hcnt]
    exact hfill

theorem stackLoop_iff {lay : Layout} (ht : 4096 ∣ lay.page_tab.toNat) :
    StackLoopExact h lay ↔ (pageCnt h.stack_size).toNat ≤ 511 := by
  have hrounds : stackRounds h = if (pageCnt h.stack_size).toNat ≤ 511 then
      (pageCnt h.stack_size).toNat else 0 := rfl
  have hmap : ∀ m, ∃ fuel m', mapStackM fuel h lay lay.page_tab (m, []) = some (m', _) :=
    fun m => mapStackM_iff.mpr rfl
  have hle511 := stackRounds_le h
  have h512 : ∀ i ∈ (List.range (stackRounds h)).map (fun j => 511 - j), i < 512 := by
    intro i hi
    obtain ⟨j, -, rfl⟩ := List.mem_map.mp hi
    omega
  have hnd : ((List.range (stackRounds h)).map (fun j => 511 - j)).Nodup := by
    refine List.nodup_range.map_on ?_
    intro i hi j hj he
    rw [List.mem_range] at hi hj
    omega
  have hfill := fillsTable_map lay.page_tab (by decide : PTE_STA < 10) h512 hnd
  rw [List.length_map, List.length_range] at hfill
  constructor
  · intro hall
    obtain ⟨fuel, m', log, hrun, hlog, -⟩ := hall (fun _ => 0)
    obtain rfl := mapStackM_iff.mp ⟨fuel, m', hrun⟩
    have hcnt : stackRounds h = (pageCnt h.stack_size).toNat :=
      hfill.count.symm.trans hlog.count
    split_ifs at hrounds <;> omega
  · intro hle m
    obtain ⟨fuel, m', hrun⟩ := hmap m
    rw [if_pos hle] at hrounds
    have hmaps := mapsPages_map ht (by decide : PTE_STA < 10) h512 hnd
      (fun i => 511 < i + (pageCnt h.stack_size).toNat)
      (by
        intro i hi
        rw [List.mem_map, ← hrounds]
        constructor
        · rintro ⟨j, hj, rfl⟩
          have := List.mem_range.mp hj
          omega
        · intro hpage
          exact ⟨511 - i, List.mem_range.mpr (by omega), by omega⟩)
      (fun i => stackFrame lay (BitVec.ofNat 32 i)) m
    rw [List.map_map] at hmaps
    obtain rfl := mapStackM_mem hrun
    exact ⟨fuel, _, _, hrun, hrounds ▸ hfill, hmaps⟩

end loops

/-- **The page-table loops.**  They end, stay in their tables and map exactly the pages of the
kernel and of the stack when, and only when, the kernel has at most 512 pages and the stack at
most 511.  This is about the loops from any memory on: `main` comes to them when the loop that
clears the area has ended without clearing the loader itself. -/
theorem pageLoopsExact_iff {mem_map : List MemMap} {h : KernelHeader} {lay : Layout}
    (ha : allocate mem_map h = some lay) : PageLoopsExact h lay ↔
      (pageCnt (imageSize h)).toNat ≤ 512 ∧ (pageCnt h.stack_size).toNat ≤ 511 := by
  obtain ⟨e, -, -, rfl⟩ := allocate_eq_some_iff.mp ha
  have hb : 4096 ∣ (pageUp e.base).toNat := Nat.dvd_of_mod_eq_zero (pageUp_mod e.base)
  unfold PageLoopsExact
  rw [kernelLoop_iff hb, stackLoop_iff (layout_page_tab_dvd hb)]

theorem pageLoopsExact_iff_small : PageLoopsExact smallKernel smallLayout :=
  (pageLoopsExact_iff allocate_small).mpr (by decide)

/-- A stack of 512 pages. -/
def wideStackKernel : KernelHeader := { smallKernel with stack_size := 0x200000 }

/-- Its region is found, and the loop over its pages stores nothing. -/
theorem pageLoops_wideStack : ∃ lay, allocate oneRegion wideStackKernel = some lay ∧
    (∀ fuel m, mapStackM (fuel + 1) wideStackKernel lay lay.page_tab (m, []) = some (m, [])) ∧
    ¬ PageLoopsExact wideStackKernel lay := by
  refine ⟨layout wideStackKernel 0x100000, by decide, ?_, ?_⟩
  · intro fuel m
    rfl
  · rintro ⟨-, hstack⟩
    rw [stackLoop_iff (by decide)] at hstack
    exact absurd hstack (by decide)

/-! ### The sectors of the image -/

section image

variable {δ : Type} (read : Reader δ) (fuel : ℕ)

/-- `loadSector` and the blocks stored so far: where each begins and its words. -/
def loadSectorM (kernel_lba : BitVec 32) (load_buf : BitVec 64)
    (s : (BitVec 32 × Mem × δ) × List (BitVec 32 × ℕ)) :
    Option ((BitVec 32 × Mem × δ) × List (BitVec 32 × ℕ)) :=
  (read (kernel_lba + s.1.1) s.1.2.2).map (fun r =>
    ((s.1.1 + 1, storeWords s.1.2.1 (sectorPtr load_buf s.1.1) r.1.words, r.2),
      s.2 ++ [(sectorPtr load_buf s.1.1, r.1.words.length)]))

/-- `loadSectors` and the blocks it stored. -/
def loadSectorsM (kernel_lba : BitVec 32) (load_buf : BitVec 64) (load_size : BitVec 32) (m : Mem)
    (d : δ) : Option ((Mem × δ) × List (BitVec 32 × ℕ)) :=
  (whileLoop (fun s : (BitVec 32 × Mem × δ) × List (BitVec 32 × ℕ) =>
      decide (s.1.1 < sectorCount load_size))
    (loadSectorM read kernel_lba load_buf) fuel ((0, m, d), [])).map (fun s => (s.1.2, s.2))

theorem loadSectorsM_val (kernel_lba : BitVec 32) (load_buf : BitVec 64) (load_size : BitVec 32)
    (m : Mem) (d : δ) : (loadSectorsM read fuel kernel_lba load_buf load_size m d).map Prod.fst =
      loadSectors read fuel kernel_lba load_buf load_size m d := by
  have hround : ∀ s, (loadSectorM read kernel_lba load_buf s).map Prod.fst =
      loadSector read kernel_lba load_buf s.1 := by
    intro s
    unfold loadSectorM loadSector
    rw [Option.map_map]
    rfl
  unfold loadSectorsM loadSectors
  rw [← whileLoop_map Prod.fst (fun _ => rfl) hround fuel ((0, m, d), []), Option.map_map,
    Option.map_map]
  rfl

end image

/-- A block that was stored reaches the address. -/
def Stored (blocks : List (BitVec 32 × ℕ)) (x : ℕ) : Prop :=
  ∃ b ∈ blocks, ∃ k < 2 * b.2, x = (b.1 + BitVec.ofNat 32 k).toNat

/-- The loop ends, stores only into the kernel area, which leaves everything else in memory as it
was, and stores every byte of the file. -/
def ImageInside {δ : Type} (read : Reader δ) (lay : Layout) (kernel_lba load_size : BitVec 32)
    (m : Mem) (d : δ) : Prop :=
  ∃ fuel m' d' blocks,
    loadSectorsM read fuel kernel_lba lay.load_buf load_size m d = some ((m', d'), blocks) ∧
    (∀ x, Stored blocks x → lay.load_buf.toNat ≤ x ∧ x < lay.pages.toNat) ∧
    (∀ x, lay.load_buf.toNat ≤ x → x < lay.load_buf.toNat + load_size.toNat → Stored blocks x) ∧
    (∀ x, x < lay.load_buf.toNat ∨ lay.pages.toNat ≤ x → m' x = m x) ∧
    load_size.toNat ≤ (sectorCount load_size).toNat * 2048

/-- The file is empty, or its sectors fit between `load_buf` and `pages`, and below 4 GiB. -/
def FileFits (lay : Layout) (load_size : BitVec 32) : Prop :=
  load_size = 0 ∨ load_size.toNat + 2047 < 2 ^ 32 ∧
    lay.load_buf.toNat + roundUp 2048 load_size.toNat ≤ lay.pages.toNat ∧
    lay.load_buf.toNat + roundUp 2048 load_size.toNat ≤ 2 ^ 32

/-- The blocks of the first `n` sectors. -/
def sectorBlocks (load_buf : BitVec 64) (n : ℕ) : List (BitVec 32 × ℕ) :=
  (List.range n).map (fun i => (sectorPtr load_buf (BitVec.ofNat 32 i), 1024))

theorem sectorBlocks_succ (load_buf : BitVec 64) (n : ℕ) : sectorBlocks load_buf (n + 1) =
    sectorBlocks load_buf n ++ [(sectorPtr load_buf (BitVec.ofNat 32 n), 1024)] := by
  unfold sectorBlocks
  rw [List.range_succ, List.map_append]
  rfl

theorem stored_sectorBlocks {load_buf : BitVec 64} {n x : ℕ} :
    Stored (sectorBlocks load_buf n) x ↔
      ∃ j < 2048 * n, x = (load_buf.toNat + j) % 2 ^ 32 := by
  have haddr : ∀ i < n, ∀ k < 2048, (sectorPtr load_buf (BitVec.ofNat 32 i) +
      BitVec.ofNat 32 k).toNat = (load_buf.toNat + (2048 * i + k)) % 2 ^ 32 := by
    intro i hi k hk
    rw [BitVec.toNat_add, sectorPtr_toNat, BitVec.toNat_ofNat, BitVec.toNat_ofNat]
    omega
  unfold Stored sectorBlocks
  constructor
  · rintro ⟨b, hb, k, hk, rfl⟩
    obtain ⟨i, hi, rfl⟩ := List.mem_map.mp hb
    rw [List.mem_range] at hi
    exact ⟨2048 * i + k, by omega, haddr i hi k hk⟩
  · rintro ⟨j, hj, rfl⟩
    refine ⟨_, List.mem_map_of_mem (List.mem_range.mpr (by omega : j / 2048 < n)), j % 2048,
      Nat.mod_lt _ (by omega), ?_⟩
    rw [haddr _ (by omega) _ (Nat.mod_lt _ (by omega)), Nat.div_add_mod]

section delivered

variable {δ : Type} {read : Reader δ}
  (hread : ∀ lba d, ∃ r d', read lba d = some (r, d') ∧ r.words.length = 1024)

include hread

/-- With whole sectors delivered the loop ends and stores one block for each. -/
theorem loadSectorsM_run (kernel_lba : BitVec 32) (load_buf : BitVec 64) (load_size : BitVec 32)
    (m : Mem) (d : δ) : ∃ m' d',
      loadSectorsM read (sectorCount load_size).toNat kernel_lba load_buf load_size m d =
        some ((m', d'), sectorBlocks load_buf (sectorCount load_size).toNat) := by
  have hlt := (sectorCount load_size).isLt
  obtain ⟨t, ht, i, hi, -, hlog⟩ := whileLoop_of_count
    (c := fun s : (BitVec 32 × Mem × δ) × List (BitVec 32 × ℕ) =>
      decide (s.1.1 < sectorCount load_size))
    (f := loadSectorM read kernel_lba load_buf)
    (fun k s => ∃ i, i + k = (sectorCount load_size).toNat ∧ s.1.1 = BitVec.ofNat 32 i ∧
      s.2 = sectorBlocks load_buf i)
    (by
      rintro k ⟨⟨i, mem, dev⟩, blocks⟩ ⟨n, hn, hi, hb⟩
      simp only at hi hb
      subst hi hb
      obtain ⟨r, dev', hr, hlen⟩ := hread (kernel_lba + BitVec.ofNat 32 n) dev
      refine ⟨?_, _, Option.map_eq_some_iff.mpr ⟨(r, dev'), hr, rfl⟩, n + 1, by omega, ?_, ?_⟩
      · rw [decide_eq_true_iff, BitVec.lt_def, BitVec.toNat_ofNat]
        omega
      · exact (BitVec.ofNat_add n 1).symm
      · rw [sectorBlocks_succ, hlen])
    (by
      rintro ⟨⟨i, mem, dev⟩, blocks⟩ ⟨n, hn, hi, -⟩
      simp only at hi
      subst hi
      rw [decide_eq_false_iff_not, BitVec.lt_def, BitVec.toNat_ofNat]
      omega)
    (sectorCount load_size).toNat ((0, m, d), []) ⟨0, Nat.zero_add _, rfl, rfl⟩
  obtain rfl : i = (sectorCount load_size).toNat := hi
  refine ⟨t.1.2.1, t.1.2.2, ?_⟩
  unfold loadSectorsM
  rw [ht, Option.map_some, hlog]

end delivered

/-- The blocks are those of any other run that ends. -/
theorem loadSectorsM_blocks {δ : Type} {read : Reader δ} {n k : ℕ} {kernel_lba : BitVec 32}
    {load_buf : BitVec 64} {load_size : BitVec 32} {m : Mem} {d : δ} {r r' : Mem × δ}
    {blocks blocks' : List (BitVec 32 × ℕ)}
    (h : loadSectorsM read n kernel_lba load_buf load_size m d = some (r, blocks))
    (h' : loadSectorsM read k kernel_lba load_buf load_size m d = some (r', blocks')) :
    blocks' = blocks := by
  obtain ⟨t, ht, he⟩ := Option.map_eq_some_iff.mp h
  obtain ⟨t', ht', he'⟩ := Option.map_eq_some_iff.mp h'
  obtain rfl := Ends.unique ⟨n, ht⟩ ⟨k, ht'⟩
  exact congrArg Prod.snd (he'.symm.trans he)

/-- Consecutive 32-bit addresses from `L` on that all lie in `[L, P)`. -/
theorem wrapped_inside_iff {L P n : ℕ} (hL : 0 < L) :
    (∀ j < n, L ≤ (L + j) % 2 ^ 32 ∧ (L + j) % 2 ^ 32 < P) ↔
      n = 0 ∨ L + n ≤ P ∧ L + n ≤ 2 ^ 32 := by
  constructor
  · intro hall
    by_cases hn : n = 0
    · exact Or.inl hn
    · have hfirst := hall 0 (by omega)
      have hwrap : L + n ≤ 2 ^ 32 := by
        by_contra hover
        have := hall (2 ^ 32 - L) (by omega)
        omega
      have hlast := hall (n - 1) (by omega)
      omega
  · intro h j hj
    omega

theorem fileFits_iff {lay : Layout} {load_size : BitVec 32} :
    FileFits lay load_size ↔
      load_size.toNat ≤ (sectorCount load_size).toNat * 2048 ∧
        (2048 * (sectorCount load_size).toNat = 0 ∨
          lay.load_buf.toNat + 2048 * (sectorCount load_size).toNat ≤ lay.pages.toNat ∧
          lay.load_buf.toNat + 2048 * (sectorCount load_size).toNat ≤ 2 ^ 32) := by
  have hlt := load_size.isLt
  have hcnt := sectorCount_toNat load_size
  have hz : load_size = 0 ↔ load_size.toNat = 0 :=
    ⟨fun h => by rw [h]; rfl, fun h => BitVec.eq_of_toNat_eq h⟩
  have hup : roundUp 2048 load_size.toNat = (load_size.toNat + 2047) / 2048 * 2048 := rfl
  unfold FileFits
  rw [hz, hup]
  omega

section fits

variable {δ : Type} {read : Reader δ}
  (hread : ∀ lba d, ∃ r d', read lba d = some (r, d') ∧ r.words.length = 1024)
  {mem_map : List MemMap} {h : KernelHeader} {lay : Layout} (ha : allocate mem_map h = some lay)
  {kernel_lba load_size : BitVec 32} {m : Mem} {d : δ}

include hread ha

theorem ImageInside.fits (hin : ImageInside read lay kernel_lba load_size m d) :
    FileFits lay load_size := by
  have hge := allocate_load_buf_ge ha
  obtain ⟨m₁, d₁, hrun⟩ := loadSectorsM_run hread kernel_lba lay.load_buf load_size m d
  obtain ⟨fuel, m', d', blocks, hrun', hstored, -, -, hsize⟩ := hin
  obtain rfl := loadSectorsM_blocks hrun' hrun
  rw [fileFits_iff, ← wrapped_inside_iff (by omega)]
  refine ⟨hsize, ?_⟩
  intro j hj
  exact hstored _ (stored_sectorBlocks.mpr ⟨j, hj, rfl⟩)

theorem FileFits.inside (hfit : FileFits lay load_size) :
    ImageInside read lay kernel_lba load_size m d := by
  have hge := allocate_load_buf_ge ha
  have hdvd := (allocate_load_buf ha).2
  have hlen : ∀ lba d r d', read lba d = some (r, d') → r.words.length ≤ 1024 := by
    intro lba d r d' hr
    obtain ⟨r₀, d₀, hr₀, hlen⟩ := hread lba d
    obtain ⟨rfl, -⟩ := Prod.mk.inj (Option.some.inj (hr.symm.trans hr₀))
    exact hlen.le
  obtain ⟨m₁, d₁, hrun⟩ := loadSectorsM_run hread kernel_lba lay.load_buf load_size m d
  obtain ⟨hsize, hend⟩ := fileFits_iff.mp hfit
  have hstored := (wrapped_inside_iff (by omega)).mpr hend
  refine ⟨_, m₁, d₁, _, hrun, ?_, ?_, ?_, hsize⟩
  · intro x hx
    obtain ⟨j, hj, rfl⟩ := stored_sectorBlocks.mp hx
    exact hstored j hj
  · intro x hx hx'
    exact stored_sectorBlocks.mpr ⟨x - lay.load_buf.toNat, by omega, by omega⟩
  · intro x hx
    have hload := loadSectorsM_val read (sectorCount load_size).toNat kernel_lba lay.load_buf
      load_size m d
    rw [hrun, Option.map_some] at hload
    exact loadSectors_frame hlen (by omega) (by omega) hload.symm (by omega)

end fits

/-- **The sectors of the image.**  For every reader that delivers whole sectors: the loop keeps to
the kernel area and loads the whole file exactly when the file fits there.  `main` comes to the
loop when the one that clears the area has ended without reaching the loader. -/
theorem imageInside_iff {δ : Type} {read : Reader δ}
    (hread : ∀ lba d, ∃ r d', read lba d = some (r, d') ∧ r.words.length = 1024)
    {mem_map : List MemMap} {h : KernelHeader} {lay : Layout} (ha : allocate mem_map h = some lay)
    (kernel_lba load_size : BitVec 32) (m : Mem) (d : δ) :
    ImageInside read lay kernel_lba load_size m d ↔ FileFits lay load_size :=
  ⟨fun hin => hin.fits hread ha, fun hfit => hfit.inside hread ha⟩

theorem diskReader_delivers (disk : Disk) (lba : BitVec 32) (d : Unit) :
    ∃ r d', diskReader disk lba d = some (r, d') ∧ r.words.length = 1024 := by
  refine ⟨fullReply (disk lba), (), by rw [diskReader], ?_⟩
  rw [fullReply, sectorWords_length]

theorem imageInside_iff_small :
    ImageInside (diskReader (fun _ _ => 0)) smallLayout 30 0x3000 (fun _ => 0) () :=
  (imageInside_iff (diskReader_delivers _) allocate_small 30 0x3000 (fun _ => 0) ()).mpr
    (by unfold FileFits; decide)

/-- A file of four pages for the small kernel of three: its last page lands on the tables. -/
theorem image_over_tables : allocate oneRegion smallKernel = some smallLayout ∧
    ¬ ImageInside (diskReader (fun _ _ => 0)) smallLayout 30 0x4000 (fun _ => 0) () := by
  refine ⟨allocate_small, ?_⟩
  intro hin
  have hfit := hin.fits (diskReader_delivers _) allocate_small
  unfold FileFits at hfit
  exact absurd hfit (by decide)

end Ziemniak.Stage2
