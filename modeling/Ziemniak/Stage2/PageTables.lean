import Ziemniak.BareMetal.Loop
import Ziemniak.BareMetal.Memory
import Ziemniak.Stage2.Allocation

/-! # Building the page tables

The part of `main` that clears the memory above the kernel area and fills the ten tables there:
the byte loop over `[pages, buf)` (`zeroPages`), the ten stores that link the tables
(`linkTables`) and the two loops that fill the kernel's and the stack's page table (`mapKernel`,
`mapStack`).  The loop counter `i` and every pointer are 32-bit, the bounds are 64-bit: this is
the arithmetic of the source, and the first and third loops need not end.

`builds_iff` says exactly when the whole part ends and what it leaves in memory: the cleared
bytes, then the lists of stores `linkStores`, `kernelStores` and `stackStores`. -/

namespace Ziemniak.Stage2

open BareMetal

/-! ### The source -/

def PML4E : ℕ := 0
def PDPE_T : ℕ := 1
def PDPE_M : ℕ := 2
def PDPE_B : ℕ := 3
def PDE_KER : ℕ := 4
def PDE_STA : ℕ := 5
def PDE_MID : ℕ := 6
def PDE_LOW : ℕ := 7
def PTE_KER : ℕ := 8
def PTE_STA : ℕ := 9

/-- The pointer `&page_tab[t][i]`. -/
def entryPtr (page_tab : BitVec 32) (t i : ℕ) : BitVec 32 :=
  page_tab + BitVec.ofNat 32 (4096 * t + 8 * i)

/-- `for (i = pages; i < buf; i++) *((uint8_t *)i) = 0x00;` -/
def zeroPages (fuel : ℕ) (lay : Layout) (m : Mem) : Option Mem :=
  forUp lay.buf (fun (i : BitVec 32) m => write8 m i.toNat 0) fuel (lay.pages.setWidth 32) m

/-- The assignments `page_tab[t][i] = page` to entries of the first eight tables. -/
def links (page_tab : BitVec 32) : List (ℕ × ℕ × Page) :=
  [(PML4E, 511, genPml4ePdpePte (entryPtr page_tab PDPE_T 0)),
   (PML4E, 256, genPml4ePdpePte (entryPtr page_tab PDPE_M 0)),
   (PML4E, 0, genPml4ePdpePte (entryPtr page_tab PDPE_B 0)),
   (PDPE_T, 510, genPml4ePdpePte (entryPtr page_tab PDE_KER 0)),
   (PDPE_T, 511, genPml4ePdpePte (entryPtr page_tab PDE_STA 0)),
   (PDPE_M, 0, genPml4ePdpePte (entryPtr page_tab PDE_MID 0)),
   (PDPE_B, 0, genPml4ePdpePte (entryPtr page_tab PDE_LOW 0)),
   (PDE_KER, 0, genPde (entryPtr page_tab PTE_KER 0) 0),
   (PDE_LOW, 0, genPde 0 1),
   (PDE_STA, 511, genPde (entryPtr page_tab PTE_STA 0) 0)]

def linkStores (page_tab : BitVec 32) : List (ℕ × BitVec 64) :=
  (links page_tab).map (fun s => ((entryPtr page_tab s.1 s.2.1).toNat, s.2.2.word))

def linkTables (page_tab : BitVec 32) (m : Mem) : Mem := writeAll m (linkStores page_tab)

/-- The frame the kernel loop stores at index `i`. -/
def kernelFrame (lay : Layout) (i : BitVec 32) : BitVec 32 := lay.load_buf.setWidth 32 + i * 4096

/-- The frame the stack loop stores at index `i`. -/
def stackFrame (lay : Layout) (i : BitVec 32) : BitVec 32 :=
  lay.buf.setWidth 32 - (511 - i) * 4096

/-- `for (i = 0; i < PAGE_CNT(pages - load_buf); i++)` -/
def mapKernel (fuel : ℕ) (lay : Layout) (page_tab : BitVec 32) (m : Mem) : Option Mem :=
  forUp (pageCnt (lay.pages - lay.load_buf))
    (fun (i : BitVec 32) m => write64 m (entryPtr page_tab PTE_KER i.toNat).toNat
      (genPml4ePdpePte (kernelFrame lay i)).word) fuel 0 m

/-- `for (i = 511; i > 511 - PAGE_CNT(header->stack_size); i--)` -/
def mapStack (fuel : ℕ) (header : KernelHeader) (lay : Layout) (page_tab : BitVec 32) (m : Mem) :
    Option Mem :=
  forDown (511 - pageCnt header.stack_size)
    (fun (i : BitVec 32) m => write64 m (entryPtr page_tab PTE_STA i.toNat).toNat
      (genPml4ePdpePte (stackFrame lay i)).word) fuel 511 m

/-- The variable `page_tab`. -/
def Layout.page_tab (lay : Layout) : BitVec 32 := lay.pages.setWidth 32

/-- From the clearing loop to the last page-table store. -/
def buildTables (fuel : ℕ) (header : KernelHeader) (lay : Layout) (m : Mem) : Option Mem := do
  let m ← zeroPages fuel lay m
  let m := linkTables lay.page_tab m
  let m ← mapKernel fuel lay lay.page_tab m
  mapStack fuel header lay lay.page_tab m

/-- The part ends and leaves `m'` in memory. -/
def Builds (header : KernelHeader) (lay : Layout) (m m' : Mem) : Prop :=
  ∃ fuel, buildTables fuel header lay m = some m'

/-! ### What the loops do -/

/-- The stores of the kernel loop. -/
def kernelStores (lay : Layout) : List (ℕ × BitVec 64) :=
  (List.range (pageCnt (lay.pages - lay.load_buf)).toNat).map (fun i =>
    ((entryPtr lay.page_tab PTE_KER i).toNat,
      (genPml4ePdpePte (kernelFrame lay (BitVec.ofNat 32 i))).word))

/-- The number of rounds of the stack loop: none when the stack has more than 511 pages. -/
def stackRounds (h : KernelHeader) : ℕ :=
  if (pageCnt h.stack_size).toNat ≤ 511 then (pageCnt h.stack_size).toNat else 0

/-- The stores of the stack loop. -/
def stackStores (h : KernelHeader) (lay : Layout) : List (ℕ × BitVec 64) :=
  (List.range (stackRounds h)).map (fun j =>
    ((entryPtr lay.page_tab PTE_STA (511 - j)).toNat,
      (genPml4ePdpePte (stackFrame lay (BitVec.ofNat 32 (511 - j)))).word))

theorem zeroPages_iff {lay : Layout} {m m' : Mem} : (∃ fuel, zeroPages fuel lay m = some m') ↔
    lay.buf.toNat < 2 ^ 32 ∧ m' = fill m (lay.pages.toNat % 2 ^ 32) lay.buf.toNat 0 := by
  unfold zeroPages
  rw [forUp_iff (by norm_num)]
  apply and_congr_right
  intro hb
  have hp : (lay.pages.setWidth 32).toNat = lay.pages.toNat % 2 ^ 32 := BitVec.toNat_setWidth ..
  have e : rounds (fun (i : BitVec 32) m => write8 m i.toNat 0)
      (List.range' (lay.pages.toNat % 2 ^ 32) (lay.buf.toNat - lay.pages.toNat % 2 ^ 32)) m =
      fill m (lay.pages.toNat % 2 ^ 32) lay.buf.toNat 0 := by
    have hwrite : ∀ (m : Mem), ∀ j ∈ List.range' (lay.pages.toNat % 2 ^ 32)
        (lay.buf.toNat - lay.pages.toNat % 2 ^ 32),
        write8 m (BitVec.ofNat 32 j).toNat 0 = write8 m j 0 := by
      intro m j hj
      rw [List.mem_range'_1] at hj
      rw [BitVec.toNat_ofNat, Nat.mod_eq_of_lt (by omega)]
    unfold rounds
    rw [List.foldl_ext _ _ _ hwrite, foldl_write8]
    cases Nat.le_total (lay.pages.toNat % 2 ^ 32) lay.buf.toNat with
    | inl hle => rw [Nat.add_sub_cancel' hle]
    | inr hge => rw [fill_empty _ (by omega), fill_empty _ hge]
  rw [hp, e]

theorem rounds_write64 (p : ℕ → ℕ) (v : BitVec 32 → BitVec 64) (l : List ℕ)
    (hl : ∀ j ∈ l, j < 2 ^ 32) (m : Mem) :
    rounds (fun (i : BitVec 32) m => write64 m (p i.toNat) (v i)) l m =
      writeAll m (l.map (fun j => (p j, v (BitVec.ofNat 32 j)))) := by
  rw [rounds, writeAll, List.foldl_map]
  apply List.foldl_ext
  intro m j hj
  rw [BitVec.toNat_ofNat, Nat.mod_eq_of_lt (hl j hj)]

theorem mapKernel_iff {lay : Layout} {m m' : Mem} :
    (∃ fuel, mapKernel fuel lay lay.page_tab m = some m') ↔
      (pageCnt (lay.pages - lay.load_buf)).toNat < 2 ^ 32 ∧ m' = writeAll m (kernelStores lay) := by
  unfold mapKernel
  rw [forUp_iff (by norm_num)]
  apply and_congr_right
  intro hb
  rw [rounds_write64 (fun i => (entryPtr lay.page_tab PTE_KER i).toNat)
    (fun i => (genPml4ePdpePte (kernelFrame lay i)).word) _ ?_ m]
  · unfold kernelStores
    rw [List.range_eq_range']
    rfl
  · intro j hj
    rw [List.mem_range'_1] at hj
    simp only [BitVec.toNat_zero, BitVec.ofNat_eq_ofNat] at hj
    omega

theorem stackRounds_eq (h : KernelHeader) :
    (511 : BitVec 32).toNat - (511 - pageCnt h.stack_size).toNat = stackRounds h := by
  have hc := pageCnt_toNat h.stack_size
  have hlt := (pageUp h.stack_size).isLt
  have he : (511 - pageCnt h.stack_size).toNat =
      (2 ^ 64 - (pageCnt h.stack_size).toNat + 511) % 2 ^ 64 := BitVec.toNat_sub ..
  have h511 : (511 : BitVec 32).toNat = 511 := rfl
  unfold stackRounds
  rw [h511, he]
  split_ifs <;> omega

theorem mapStack_iff {h : KernelHeader} {lay : Layout} {m m' : Mem} :
    (∃ fuel, mapStack fuel h lay lay.page_tab m = some m') ↔
      m' = writeAll m (stackStores h lay) := by
  unfold mapStack
  rw [forDown_iff (by norm_num)]
  rw [rounds_write64 (fun i => (entryPtr lay.page_tab PTE_STA i).toNat)
    (fun i => (genPml4ePdpePte (stackFrame lay i)).word) _ ?_ m]
  · unfold stackStores
    rw [List.map_map, stackRounds_eq]
    rfl
  · intro j hj
    obtain ⟨k, -, rfl⟩ := List.mem_map.mp hj
    exact lt_of_le_of_lt (Nat.sub_le _ _) (BitVec.isLt _)

/-! ### What the tables part leaves in memory -/

/-- All table stores, in order. -/
def tableStores (h : KernelHeader) (lay : Layout) : List (ℕ × BitVec 64) :=
  linkStores lay.page_tab ++ kernelStores lay ++ stackStores h lay

/-- The memory with `[pages, buf)` cleared and the tables filled. -/
def built (h : KernelHeader) (lay : Layout) (m : Mem) : Mem :=
  writeAll (fill m (lay.pages.toNat % 2 ^ 32) lay.buf.toNat 0) (tableStores h lay)

theorem buildTables_eq_some {fuel : ℕ} {h : KernelHeader} {lay : Layout} {m m' : Mem}
    (hb : buildTables fuel h lay m = some m') : lay.buf.toNat < 2 ^ 32 ∧
      (pageCnt (lay.pages - lay.load_buf)).toNat < 2 ^ 32 ∧ m' = built h lay m := by
  unfold buildTables at hb
  simp only [Option.bind_eq_bind, Option.bind_eq_some_iff] at hb
  obtain ⟨m₁, h₁, m₂, h₂, h₃⟩ := hb
  obtain ⟨hbuf, rfl⟩ := zeroPages_iff.mp ⟨fuel, h₁⟩
  obtain ⟨hcnt, rfl⟩ := mapKernel_iff.mp ⟨fuel, h₂⟩
  obtain rfl := mapStack_iff.mp ⟨fuel, h₃⟩
  refine ⟨hbuf, hcnt, ?_⟩
  unfold built tableStores linkTables
  simp only [writeAll_append]

theorem buildTables_mono {n k : ℕ} (hnk : n ≤ k) {h : KernelHeader} {lay : Layout} {m m' : Mem}
    (hb : buildTables n h lay m = some m') : buildTables k h lay m = some m' := by
  unfold buildTables at hb ⊢
  simp only [Option.bind_eq_bind, Option.bind_eq_some_iff] at hb ⊢
  obtain ⟨m₁, h₁, m₂, h₂, h₃⟩ := hb
  exact ⟨m₁, forUp_mono hnk h₁, m₂, forUp_mono hnk h₂, forDown_mono hnk h₃⟩

theorem buildTables_any {fuel : ℕ} {h : KernelHeader} {lay : Layout} {m m₁ : Mem}
    (hb : buildTables fuel h lay m = some m₁) (m' : Mem) :
    ∃ m₁', buildTables fuel h lay m' = some m₁' := by
  unfold buildTables at hb ⊢
  simp only [Option.bind_eq_bind, Option.bind_eq_some_iff] at hb ⊢
  obtain ⟨ma, ha, mb, hb, hc⟩ := hb
  obtain ⟨ma', ha'⟩ := forUp_any ha m'
  obtain ⟨mb', hb'⟩ := forUp_any hb (linkTables lay.page_tab ma')
  obtain ⟨mc', hc'⟩ := forDown_any hc mb'
  exact ⟨mc', ma', ha', mb', hb', hc'⟩

/-- The part ends exactly when the end of the allocation and the number of kernel pages fit in
the 32-bit counter. -/
theorem builds_iff {h : KernelHeader} {lay : Layout} {m m' : Mem} :
    Builds h lay m m' ↔ lay.buf.toNat < 2 ^ 32 ∧
      (pageCnt (lay.pages - lay.load_buf)).toNat < 2 ^ 32 ∧ m' = built h lay m := by
  constructor
  · rintro ⟨fuel, hb⟩
    exact buildTables_eq_some hb
  · rintro ⟨hbuf, hcnt, rfl⟩
    obtain ⟨n₁, h₁⟩ := (zeroPages_iff (m := m)).mpr ⟨hbuf, rfl⟩
    obtain ⟨n₂, h₂⟩ := (mapKernel_iff (m := linkTables lay.page_tab _)).mpr ⟨hcnt, rfl⟩
    obtain ⟨n₃, h₃⟩ := (mapStack_iff (h := h) (m := writeAll _ (kernelStores lay))).mpr rfl
    refine ⟨max n₁ (max n₂ n₃), ?_⟩
    unfold buildTables
    simp only [Option.bind_eq_bind, Option.bind_eq_some_iff]
    refine ⟨_, forUp_mono (by omega) h₁, _, forUp_mono (by omega) h₂, ?_⟩
    have e : mapStack (max n₁ (max n₂ n₃)) h lay lay.page_tab _ = some _ :=
      forDown_mono (by omega) h₃
    rw [e]
    unfold built tableStores linkTables
    simp only [writeAll_append]

end Ziemniak.Stage2
