import Ziemniak.Kernel.BootLog
import Ziemniak.Kernel.Handoff
import Ziemniak.Kernel.Start
import Ziemniak.Stage2.BootRuns

/-! # From the loader to `main`

`main_entered` puts the loader, `run` and `_start` together: what `main` of the kernel finds in its
registers and, through the tables, in memory.  `mainStack_free` looks at the memory it runs on. -/

namespace Ziemniak.Kernel

open BareMetal BareMetal.Paging
open Stage2 (KernelHeader Layout imageSize Regular TablesAt InStackWindow kernelBase)

/-! ### `main` -/

theorem readLE_one (m : Mem) (a : ℕ) : readLE 1 m a = (m a).toNat := by simp [readLE]

/-- A byte of the descriptors that `init_gdt` stores. -/
def Patched (gdtr x : ℕ) : Prop := basel gdtr ≤ x ∧ x ≤ baseh gdtr ∨ x = baseh gdtr + 3

theorem initGdt_unpatched (tss : BitVec 64) {gdtr x : ℕ} (s : SegState) (hx : ¬ Patched gdtr x) :
    (initGdt tss gdtr s).mem x = s.mem x := by
  have hbasel : basel gdtr = gdtTss gdtr + 2 := rfl
  have hbaseh : baseh gdtr = gdtTss gdtr + 4 := rfl
  unfold Patched at hx
  rw [initGdt_mem, writeLE_of_not_mem (by omega), writeLE_of_not_mem (by omega),
    writeLE_of_not_mem (by omega)]

theorem initGdt_loaded {tss : BitVec 64} {gdtr : ℕ} {s : SegState}
    (hgdt : AgreeOn s.mem (gdtSection gdtr fun _ => 0) gdtr 50) (htss : kernelBase ≤ tss.toNat) :
    systemSegment (initGdt tss gdtr s).mem (gdtTss gdtr) =
      { base := tss, limit := 0x68, type := 0x89, flags := 0 } := by
  have hlt := tss.isLt
  have hbase : kernelBase = 0xFFFFFFFF80000000 := rfl
  have hplace : gdtTss gdtr = gdtr + 34 := rfl
  have hseg : systemSegment s.mem (gdtTss gdtr) =
      systemSegment (gdtSection gdtr fun _ => 0) (gdtTss gdtr) :=
    systemSegment_congr (fun x hx hx' => hgdt x (by omega) (by omega))
  have hhigh : readLE 4 s.mem (gdtTss gdtr + 8) = 0xFFFFFFFF := by
    rw [← gdtSection_high gdtr fun _ => 0]
    exact readLE_congr (fun x hx hx' => hgdt x (by omega) (by omega))
  have heq : BitVec.ofNat 64 (tss.toNat % 2 ^ 32 + 2 ^ 32 * 0xFFFFFFFF) = tss := by
    apply BitVec.eq_of_toNat_eq
    rw [BitVec.toNat_ofNat]
    omega
  rw [initGdt_segment, hseg, gdtSection_segment, hhigh, heq]

section flat

variable {h : KernelHeader} {gdtr : ℕ} (L : Linked h gdtr) {V : Mem} {x : ℕ} {σ : SegState}
  (hσ : σ.mem = clearedMem h V x) (tss ret : BitVec 64)

include L hσ

theorem mainMem_image {y : ℕ} (hy : y < h.sbss.toNat) (hp : ¬ Patched gdtr y) :
    writeLE 8 (initGdt tss gdtr σ).mem startFrame.toNat ret.toNat y = V y := by
  have h1 := L.bss_le
  have h2 := L.below_frame
  rw [writeLE_of_not_mem (by omega), initGdt_unpatched tss σ hp, hσ, clearedMem_below L hy]

theorem mainMem_bss {y : ℕ} (hlo : h.sbss.toNat ≤ y) (hhi : y < h.ebss.toNat) :
    writeLE 8 (initGdt tss gdtr σ).mem startFrame.toNat ret.toNat y = 0 := by
  have h1 := L.gdtr_below
  have h2 := L.below_frame
  have hbasel : basel gdtr = gdtr + 36 := rfl
  have hbaseh : baseh gdtr = gdtr + 38 := rfl
  have hp : ¬ Patched gdtr y := by
    unfold Patched
    omega
  rw [writeLE_of_not_mem (by omega), initGdt_unpatched tss σ hp, hσ, clearedMem_bss hlo hhi]

theorem mainMem_tss (hgdt : AgreeOn V (gdtSection gdtr fun _ => 0) gdtr 50)
    (htss : kernelBase ≤ tss.toNat) :
    systemSegment (writeLE 8 (initGdt tss gdtr σ).mem startFrame.toNat ret.toNat) (gdtTss gdtr) =
      { base := tss, limit := 0x68, type := 0x89, flags := 0 } := by
  have h1 := L.gdtr_below
  have h2 := L.bss_le
  have h3 := L.below_frame
  have hplace : gdtTss gdtr = gdtr + 34 := rfl
  have hσgdt : AgreeOn σ.mem (gdtSection gdtr fun _ => 0) gdtr 50 :=
    hσ ▸ clearedMem_gdt L x hgdt
  rw [← initGdt_loaded hσgdt htss]
  exact systemSegment_congr (fun y hy hy' => writeLE_of_not_mem (by omega))

end flat

/-- The bytes of `lm_data`, read as the kernel declares them. -/
theorem readLE_longMode {packed : Bool} {p : BareMetal.Placed LongModeMember}
    (hp : p ∈ longModeDataKernel.layout x86_64 packed) (m : Mem) (a : ℕ) (v : Stage2.LongModeData) :
    readLE p.size (Stage2.storeLongModeData m a v) (a + p.offset) = longModeValue v p.member := by
  rw [← longMode_places true packed] at hp
  rw [storeLongModeData_eq true,
    readLE_storeMembers (Struct.layout_noAlias i686_align true _) hp,
    Nat.mod_eq_of_lt (longModeValue_lt v p hp)]

theorem longMode_within {packed : Bool} {p : BareMetal.Placed LongModeMember}
    (hp : p ∈ longModeDataKernel.layout x86_64 packed) :
    p.offset + p.size ≤ Stage2.LM_DATA_SIZE := by
  revert p
  cases packed <;> decide

/-- What `main` starts with, when the loader has left the memory of `j` with its stack from `esp`
on. -/
structure MainEntered {δ : Type} (j : Stage2.Jump δ) (lay : Layout) (esp : ℕ) (tss : BitVec 64)
    (gdtr : ℕ) (ret : BitVec 64) (t : Machine) : Prop where
  /-- The stack was aligned to 16 bytes before the call. -/
  rsp_eq : t.gpr .rsp = 0xFFFFFFFFFFFFFFF0 - 8
  return_at : t.load mmu 8 (t.gpr .rsp) = some ret.toNat
  lm_data_at : ∀ packed, ∀ p ∈ longModeDataKernel.layout x86_64 packed,
    t.load mmu p.size (t.gpr .rdi + BitVec.ofNat 64 p.offset) =
      some (longModeValue j.lm_data p.member)
  low_at : ∀ v : BitVec 64, v.toNat < esp → t.load mmu 1 v = some (j.mem v.toNat).toNat
  bss_at : ∀ v : BitVec 64, j.header.sbss ≤ v → v < j.header.ebss → t.load mmu 1 v = some 0
  image_at : ∀ v : BitVec 64, kernelBase ≤ v.toNat → v < j.header.sbss → ¬ Patched gdtr v.toNat →
    t.load mmu 1 v = some (j.mem (j.lm_data.load_buf.toNat + (v.toNat - kernelBase))).toNat
  tss_at : systemSegment (view (kernelPlace j.header lay) t.mem) (gdtTss gdtr) =
    { base := tss, limit := 0x68, type := 0x89, flags := 0 }
  gdtr_eq : t.gdtr = { base := gdtNull gdtr, limit := 39 }
  segments : t.seg .cs = 0x08 ∧ ∀ g, g ≠ .cs → t.seg g = 0x10
  /-- `EM`, `MP`, `OSFXSR` and `OSXMMEXCPT`. -/
  sse : (t.cr .cr0).getLsbD 2 = false ∧ (t.cr .cr0).getLsbD 1 = true ∧
    (t.cr .cr4).getLsbD 9 = true ∧ (t.cr .cr4).getLsbD 10 = true
  masked : t.enabled = false
  upwards : t.direction = false
  tables : TablesAt j.header lay t.mem
  cr3_eq : t.cr .cr3 = j.cr3
  /-- Outside the image, the stack of the kernel and that of the loader. -/
  rest : ∀ a, a < esp ∨ 2 ^ 20 ≤ a →
    (∀ v, KernelSpace j.header v → kernelPlace j.header lay v ≠ a) → t.mem a = j.mem a

theorem kernelPlace_high {h : KernelHeader} {lay : Layout} (R : Regular h lay)
    (hge : 0x100000 ≤ lay.load_buf.toNat) (v : BitVec 64) : 2 ^ 20 ≤ kernelPlace h lay v := by
  have h1 := R.pages_eq
  have h2 := R.stack_eq
  unfold kernelPlace
  split_ifs <;> omega

theorem kernelSegments_eq {seg : Seg → BitVec 16} {g : Seg} (hg : g ≠ .cs) :
    kernelSegments seg g = 0x10 := by
  cases g with
  | cs => exact absurd rfl hg
  | ds => rfl
  | es => rfl
  | fs => rfl
  | gs => rfl
  | ss => rfl

section entered

variable {h : KernelHeader} {gdtr : ℕ} (L : Linked h gdtr)

include L

theorem Linked.place (hS : h.stack_size.toNat ≤ 511 * 4096) (lay : Layout) {v : BitVec 64}
    (hv : v.toNat < h.ebss.toNat) :
    kernelPlace h lay v = lay.load_buf.toNat + (v.toNat - kernelBase) := by
  have h1 := L.ebss_le
  have htop : kernelBase + 0x200000 + 511 * 4096 < 2 ^ 64 := by decide
  have hst : ¬ InStackWindow h v := by
    unfold InStackWindow
    omega
  exact if_neg hst

theorem Linked.image_le : (imageSize h).toNat ≤ 0x200000 := by
  have h1 := L.imageSize_eq
  have h2 := L.ebss_le
  omega

end entered

/-- The machine at `main`, when `run` was called in memory `m` with `lm_data` at `arg`: the
registers, and what the kernel sees of its memory. -/
structure AtMain (h : KernelHeader) (lay : Layout) (gdtr : ℕ) (tss ret : BitVec 64) (m : Mem)
    (arg : BitVec 64) (σ : SegState) (t : Machine) : Prop where
  rsp_eq : t.gpr .rsp = startFrame
  rdi_eq : t.gpr .rdi = arg
  gdtr_eq : t.gdtr = { base := gdtNull gdtr, limit := 39 }
  segments : t.seg .cs = 0x08 ∧ ∀ g, g ≠ .cs → t.seg g = 0x10
  sse : (t.cr .cr0).getLsbD 2 = false ∧ (t.cr .cr0).getLsbD 1 = true ∧
    (t.cr .cr4).getLsbD 9 = true ∧ (t.cr .cr4).getLsbD 10 = true
  masked : t.enabled = false
  upwards : t.direction = false
  paged : paging t.cr = true
  cr3_eq : t.cr .cr3 = lay.page_tab.setWidth 64
  behind : Behind (KernelSpace h) (kernelPlace h lay) (TablesAt h lay) m
    (writeLE 8 (initGdt tss gdtr σ).mem startFrame.toNat ret.toNat) t.mem
  flat : σ.mem = clearedMem h (view (kernelPlace h lay) m) arg.toNat

/-- Neither `run` nor `_start` faults. -/
theorem atMain_run {h : KernelHeader} {lay : Layout} {gdtr : ℕ} (L : Linked h gdtr)
    (R : Regular h lay) {st : Stage2.Statics} {m : Mem} {g : ℕ} {s : Machine}
    (c : Stage2.Calls st h lay g m s) (T : TablesAt h lay s.mem)
    (hgdt : AgreeOn (view (kernelPlace h lay) s.mem) (gdtSection gdtr fun _ => 0) gdtr 50)
    (tss ret : BitVec 64) :
    ∃ t σ, runOps mmu (Stage2.run g ++ start h tss gdtr ret) s = some t ∧
      AtMain h lay gdtr tss ret s.mem (st.lm_data.setWidth 64) σ t := by
  obtain ⟨r₀, hr₀, -, hrsp₀, hrax₀⟩ := c.entered.run (Stage2.lowMapped R T)
  have hlme : (s.efer ||| 1#64 <<< 8).getLsbD 8 = true := by
    rw [BitVec.getLsbD_or]
    simp
  have hpae : (Stage2.kernelCr s.cr lay.page_tab .cr4).getLsbD 5 = true := by
    have hcr4 : Stage2.kernelCr s.cr lay.page_tab .cr4 = 0xA0 := rfl
    rw [hcr4]
    decide
  have hframe₀ : r₀ .rsp - 8 = startFrame := by
    rw [hrsp₀]
    decide
  obtain ⟨r, m', σ, hstart, b, hσ, hrdi, hrsp⟩ := start_run L R (s := { s with
    gpr := r₀
    cr := Stage2.kernelCr s.cr lay.page_tab
    efer := s.efer ||| 1#64 <<< 8
    seg := Stage2.longSegments (Function.update s.seg .cs 0x08)
    gdtr := { base := g + 6, limit := 23 }
    enabled := false }) (Stage2.kernelCr_paging _ _) rfl hpae hlme hframe₀ T hgdt tss ret
  have hrun : runOps mmu (Stage2.run g ++ start h tss gdtr ret) s = some { s with
      gpr := r
      cr := sseCr (Stage2.kernelCr s.cr lay.page_tab)
      efer := s.efer ||| 1#64 <<< 8
      seg := kernelSegments (Stage2.longSegments (Function.update s.seg .cs 0x08))
      gdtr := { base := gdtNull gdtr, limit := 39 }
      direction := false
      enabled := false
      mem := m' } := by
    rw [runOps_append, hr₀, Option.bind_some]
    exact hstart
  simp only [hrax₀] at hσ hrdi
  exact ⟨_, σ, hrun,
    { rsp_eq := hrsp
      rdi_eq := hrdi
      gdtr_eq := rfl
      segments := ⟨rfl, fun g hg => kernelSegments_eq hg⟩
      sse := sseCr_sse _
      masked := rfl
      upwards := rfl
      paged := (sseCr_paging _).trans (Stage2.kernelCr_paging _ _)
      cr3_eq := rfl
      behind := b
      flat := hσ }⟩

section atMain

variable {h : KernelHeader} {lay : Layout} {gdtr : ℕ} {tss ret arg : BitVec 64} {m : Mem}
  {σ : SegState} {t : Machine} (L : Linked h gdtr) (R : Regular h lay)
  (S : AtMain h lay gdtr tss ret m arg σ t)

include L R S

theorem AtMain.window :
    Window (KernelSpace h) (kernelPlace h lay) (TablesAt h lay) t.cr :=
  kernelWindow R L.stack_aligned S.paged S.cr3_eq

theorem AtMain.load_kernel {v : BitVec 64} (hv : KernelSpace h v) : t.load mmu 1 v = some
    (writeLE 8 (initGdt tss gdtr σ).mem startFrame.toNat ret.toNat v.toNat).toNat := by
  rw [S.behind.read (S.window L R) v.isLt (fun x hx hx' => by
    obtain rfl : x = v := BitVec.eq_of_toNat_eq (by omega)
    exact hv), readLE_one]

theorem AtMain.return_at : t.load mmu 8 (t.gpr .rsp) = some ret.toNat := by
  have hret := ret.isLt
  obtain ⟨hwrap, hcov⟩ := L.covers_frame
  rw [S.rsp_eq, S.behind.read (S.window L R) hwrap hcov, readLE_writeLE,
    Nat.mod_eq_of_lt (by omega)]

theorem AtMain.bss_at {v : BitVec 64} (hlo : h.sbss ≤ v) (hhi : v < h.ebss) :
    t.load mmu 1 v = some 0 := by
  have h1 := L.gdtr_ge
  have h2 := L.gdtr_below
  have hlo' : h.sbss.toNat ≤ v.toNat := hlo
  rw [S.load_kernel L R (L.space (by omega) hhi), mainMem_bss L S.flat tss ret hlo' hhi]
  rfl

theorem AtMain.image_at (hS : h.stack_size.toNat ≤ 511 * 4096) {v : BitVec 64}
    (hlo : kernelBase ≤ v.toNat) (hhi : v < h.sbss) (hp : ¬ Patched gdtr v.toNat) :
    t.load mmu 1 v = some (m (lay.load_buf.toNat + (v.toNat - kernelBase))).toNat := by
  have h1 := L.bss_le
  have hhi' : v.toNat < h.sbss.toNat := hhi
  have hself : BitVec.ofNat 64 v.toNat = v := by rw [BitVec.ofNat_toNat, BitVec.setWidth_eq]
  rw [S.load_kernel L R (L.space hlo (by omega)), mainMem_image L S.flat tss ret hhi' hp, view,
    hself, L.place hS lay (by omega)]

omit R in
theorem AtMain.tss_at
    (hgdt : AgreeOn (view (kernelPlace h lay) m) (gdtSection gdtr fun _ => 0) gdtr 50)
    (htss : kernelBase ≤ tss.toNat) :
    systemSegment (view (kernelPlace h lay) t.mem) (gdtTss gdtr) =
      { base := tss, limit := 0x68, type := 0x89, flags := 0 } := by
  have h1 := L.gdtr_ge
  have h2 := L.gdtr_below
  have h3 := L.bss_le
  have hebss := h.ebss.isLt
  have hplace : gdtTss gdtr = gdtr + 34 := rfl
  rw [← mainMem_tss L S.flat tss ret hgdt htss]
  apply systemSegment_congr
  intro x hx hx'
  have h64 : (BitVec.ofNat 64 x).toNat = x := Nat.mod_eq_of_lt (by omega)
  rw [view, S.behind.shows _ (L.space (by omega) (by omega)), h64]

omit L in
theorem AtMain.load_low (hge : 0x100000 ≤ lay.load_buf.toNat) {n : ℕ} {v : BitVec 64}
    (hv : v.toNat + n ≤ 2 ^ 20) : t.load mmu n v = some (readLE n m v.toNat) := by
  have hsame : readLE n t.mem v.toNat = readLE n m v.toNat := by
    apply readLE_congr
    intro x hx hx'
    refine S.behind.rest x (fun u _ => ?_)
    have hplace := kernelPlace_high R hge u
    omega
  rw [Stage2.load_low (by omega) (fun _ => S.cr3_eq ▸ Stage2.lowMapped R S.behind.keeps), hsame]

end atMain

theorem view_gdt {h : KernelHeader} {lay : Layout} {gdtr : ℕ} (L : Linked h gdtr)
    (hS : h.stack_size.toNat ≤ 511 * 4096) {m : Mem}
    (hgdt : ∀ i < 50, m (lay.load_buf.toNat + (gdtr - kernelBase) + i) =
      gdtSection gdtr (fun _ => 0) (gdtr + i)) :
    AgreeOn (view (kernelPlace h lay) m) (gdtSection gdtr fun _ => 0) gdtr 50 := by
  intro x hx hx'
  have h1 := L.gdtr_ge
  have h2 := L.gdtr_below
  have h3 := L.bss_le
  have hebss := h.ebss.isLt
  have h64 : (BitVec.ofNat 64 x).toNat = x := Nat.mod_eq_of_lt (by omega)
  have hbyte := hgdt (x - gdtr) (by omega)
  have hplace : lay.load_buf.toNat + (gdtr - kernelBase) + (x - gdtr) =
      lay.load_buf.toNat + (x - kernelBase) := by omega
  rw [hplace, Nat.add_sub_cancel' hx] at hbyte
  unfold view
  rw [L.place hS lay (by omega), h64, hbyte]

theorem AtMain.mainEntered {δ : Type} {j : Stage2.Jump δ} {lay : Layout} {esp gdtr : ℕ}
    {tss ret : BitVec 64} {m m₀ : Mem} {a : BitVec 32} {σ : SegState} {t : Machine}
    (S : AtMain j.header lay gdtr tss ret m (a.setWidth 64) σ t) (L : Linked j.header gdtr)
    (hS : j.header.stack_size.toNat ≤ 511 * 4096) (R : Regular j.header lay)
    (hge : 0x100000 ≤ lay.load_buf.toNat) (hbuf : j.lm_data.load_buf = lay.load_buf)
    (hcr3 : j.cr3 = lay.page_tab.setWidth 64)
    (hlm : j.mem = Stage2.storeLongModeData m₀ a.toNat j.lm_data)
    (hframe : ∀ x, x < esp ∨ 2 ^ 20 ≤ x → m x = j.mem x) (hesp : esp + 20 ≤ 2 ^ 20)
    (hbelow : a.toNat + Stage2.LM_DATA_SIZE ≤ esp)
    (hgdt : AgreeOn (view (kernelPlace j.header lay) m) (gdtSection gdtr fun _ => 0) gdtr 50)
    (htss : kernelBase ≤ tss.toNat) : MainEntered j lay esp tss gdtr ret t := by
  have hlow : ∀ {n : ℕ} {v : BitVec 64}, v.toNat + n ≤ esp →
      t.load mmu n v = some (readLE n j.mem v.toNat) := by
    intro n v hv
    rw [S.load_low R hge (by omega)]
    exact congrArg some (readLE_congr fun x _ hx => hframe x (Or.inl (by omega)))
  refine
    { rsp_eq := S.rsp_eq.trans (by decide)
      return_at := S.return_at L R
      lm_data_at := ?_
      low_at := ?_
      bss_at := fun v => S.bss_at L R
      image_at := ?_
      tss_at := S.tss_at L hgdt htss
      gdtr_eq := S.gdtr_eq
      segments := S.segments
      sse := S.sse
      masked := S.masked
      upwards := S.upwards
      tables := S.behind.keeps
      cr3_eq := S.cr3_eq.trans hcr3.symm
      rest := fun x hx hout => (S.behind.rest x hout).trans (hframe x hx) }
  · intro packed p hp
    have hin := longMode_within hp
    have hbase : (a.setWidth 64).toNat = a.toNat := by
      rw [BitVec.toNat_setWidth]
      omega
    have haddr : (a.setWidth 64 + BitVec.ofNat 64 p.offset).toNat = a.toNat + p.offset := by
      rw [toNat_add_ofNat (by omega), hbase]
    rw [S.rdi_eq, hlow (by omega), haddr, hlm, readLE_longMode hp]
  · intro v hv
    rw [hlow (by omega), readLE_one]
  · intro v hlo hhi hp
    rw [S.image_at L R hS hlo hhi hp, hbuf, hframe _ (Or.inr (by omega))]

/-- The small kernel with a page of `.bss`. -/
def bssKernel : KernelHeader := { Stage2.smallKernel with ebss := 0xFFFFFFFF80004000 }

def bssLayout : Layout where
  load_buf := 0x100000
  pages := 0x104000
  stack := 0x10E000
  buf := 0x112000

theorem allocate_bss : Stage2.allocate Stage2.oneRegion bssKernel = some bssLayout := by decide

theorem regular_bss : Regular bssKernel bssLayout :=
  Stage2.allocate_regular allocate_bss (by decide) (by decide) (by decide)

theorem linked_bss : Linked bssKernel 0xFFFFFFFF80001100 where
  stext_eq := by decide
  gdtr_ge := by decide
  gdtr_below := by decide
  bss_le := by decide
  sbss_aligned := by decide
  ebss_aligned := by decide
  ebss_le := by decide
  stack_aligned := by decide
  stack_pos := by decide

/-- A disk with the descriptors in the file at LBA 30. -/
def gdtDisk : Stage2.Disk := fun lba o =>
  gdtSection 0xFFFFFFFF80001100 (fun _ => 0) (kernelBase + 2048 * (lba.toNat - 30) + o)

theorem gdtDisk_file {k : ℕ} (hk : k < 2 ^ 20) :
    Stage2.fileByte gdtDisk 30 k = gdtSection 0xFFFFFFFF80001100 (fun _ => 0) (kernelBase + k) := by
  have hlba : (30 + BitVec.ofNat 32 (k / 2048)).toNat = 30 + k / 2048 :=
    toNat_add_ofNat (show 30 + k / 2048 < 2 ^ 32 by omega)
  have hsum : kernelBase + 2048 * (30 + k / 2048 - 30) + k % 2048 = kernelBase + k := by omega
  unfold Stage2.fileByte gdtDisk
  rw [hlba, hsum]

/-- **The top page of the stack is free.**  Whatever the map of the BIOS and the kernel, as long as
the tables of the loader are in place: of all the pages of the stack exactly the top one, where
`main` runs, lies in the memory that `mm_init` reports as free. -/
theorem mainStack_free {mem_map : List Stage2.MemMap} {h : KernelHeader} {lay : Layout} {gdtr : ℕ}
    (L : Linked h gdtr) (hS : h.stack_size.toNat ≤ 511 * 4096)
    (hdisj : mem_map.Pairwise (fun a b => Disjoint (regionBytes a) (regionBytes b)))
    (hmap : ∀ e ∈ mem_map, e.base.toNat + e.len.toNat ≤ 2 ^ 52)
    (ha : Stage2.allocate mem_map h = some lay) (hend : Stage2.allocationEnd h lay < 2 ^ 32)
    {m : Mem} (T : TablesAt h lay m) (peek_entry : Option PeekTable) {v : BitVec 64}
    (hv : InStackWindow h v) : ∃ a, walk m (lay.page_tab.setWidth 64) v = some a ∧
      (a ∈ freeBytes (mmInit peek_entry (mem_map.map .ofLoader) lay.load_buf lay.buf).map ↔
        2 ^ 64 - 4096 ≤ v.toNat) := by
  have R : Regular h lay := Stage2.allocate_regular ha L.image_le hS hend
  have himage := L.image_le
  have hs : (imageSize h).toNat + h.stack_size.toNat + 12 * 4096 < 2 ^ 32 := by omega
  have hplace : kernelPlace h lay v =
      lay.stack.toNat + 4096 + (v.toNat - (2 ^ 64 - h.stack_size.toNat)) := if_pos hv
  have hv64 := v.isLt
  have hcan : Canonical v := by
    unfold InStackWindow at hv
    exact Or.inr (by omega)
  refine ⟨kernelPlace h lay v, ?_, ?_⟩
  · rw [T.walk_eq R hcan, translation_kernelPlace R L.stack_aligned (Or.inr hv)]
  · obtain ⟨e, hf, hlb, -, -, -⟩ := Stage2.allocate_placed hmap hs ha
    obtain ⟨he, htype, hmib, hlen⟩ := Stage2.firstFit_fits hf
    have h1 := R.pages_eq
    have h2 := R.stack_eq
    have h3 := R.buf_eq
    have h4 := R.load_buf_aligned
    have h5 := L.stack_aligned
    have h6 := L.sbss_aligned
    have h7 := L.ebss_aligned
    have h8 := L.imageSize_eq
    have hbase : kernelBase = 0xFFFFFFFF80000000 := rfl
    rw [freeBytes_mmInit hdisj hmap hs ha, hplace]
    rw [Stage2.roundUp_page] at h1 hlb
    unfold InStackWindow at hv
    constructor
    · rintro ⟨-, hout⟩
      rw [Set.mem_Ico, Stage2.roundUp_page] at hout
      omega
    · intro htop
      have himg : 4096 ∣ (imageSize h).toNat := by omega
      refine ⟨⟨e, he, htype, ?_, ?_, ?_⟩, ?_⟩
      · rw [Stage2.roundUp_page]
        omega
      · rw [Stage2.roundUp_page]
        omega
      · unfold roundDown
        omega
      · rw [Set.mem_Ico, Stage2.roundUp_page]
        omega

theorem mainStack_free_bss : ∃ a, walk (Stage2.built bssKernel bssLayout fun _ => 0)
      (bssLayout.page_tab.setWidth 64) startFrame = some a ∧
    a ∈ freeBytes (mmInit none (Stage2.oneRegion.map .ofLoader) bssLayout.load_buf
      bssLayout.buf).map := by
  obtain ⟨a, ha, hfree⟩ := mainStack_free linked_bss (by decide) (List.pairwise_singleton _ _)
    (by decide) allocate_bss (by decide) (Stage2.built_tablesAt regular_bss fun _ => 0) none
    (show InStackWindow bssKernel startFrame by decide)
  exact ⟨a, ha, hfree.mpr (by decide)⟩

end Ziemniak.Kernel
