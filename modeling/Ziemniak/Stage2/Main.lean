import Ziemniak.Stage2.Cdrom
import Ziemniak.Stage2.Mapping

/-! # Loading the kernel

`main` from the start of the drive to the jump into the kernel: find the file, read its header,
allocate, build the tables, load the sectors of the image, fill `lm_data` and `run`.

`boot` is `main` after the drive was initialised, for any `Reader`; `bootKernel` is its tail
after the header was read.  A call that never returns is `none`, a `halt` is an `Outcome` with
its message, and reaching the kernel is a `Jump`: the registers it starts with and the memory
and device it finds.  What `main` prints is left out. -/

namespace Ziemniak.Stage2

open BareMetal BareMetal.Paging

/-! ### The source -/

def kernel_name : List (BitVec 8) :=
  ['P', 'O', 'T', 'A', 'T', 'O', '.', 'B', 'I', 'N'].map (fun c => BitVec.ofNat 8 c.toNat)

/-- `(struct kernel_header *)cdrom_buf` -/
def readHeader (buf : Buf) : KernelHeader where
  start := read64 buf 0
  stext := read64 buf 8
  etext := read64 buf 16
  sdata := read64 buf 24
  edata := read64 buf 32
  srodata := read64 buf 40
  erodata := read64 buf 48
  sbss := read64 buf 56
  ebss := read64 buf 64
  stack_size := read64 buf 72

/-- The reasons to halt. -/
inductive Halt where
  | diskNotSupported
  | kernelNotFound
  | noMemory
deriving DecidableEq, Repr

def Halt.message : Halt → String
  | diskNotSupported => "Disk not supported :<\n"
  | kernelNotFound => "Kernel not found :<\n"
  | noMemory => "Could not allocate sufficient memory :<\n"

/-- The processor and the machine when the kernel gets control. -/
structure Jump (δ : Type) where
  rip : BitVec 64
  rsp : BitVec 64
  rax : BitVec 64
  cr3 : BitVec 64
  cr4 : BitVec 64
  header : KernelHeader
  load_size : BitVec 32
  lm_data : LongModeData
  mem : Mem
  dev : δ

inductive Outcome (δ : Type) where
  | halted (reason : Halt)
  | running (jump : Jump δ)

/-- The packed bytes of `lm_data`. -/
def storeLongModeData (m : Mem) (a : ℕ) (lm : LongModeData) : Mem :=
  let m := writeLE 8 m a lm.framebuf_ptr.toNat
  let m := writeLE 8 m (a + 8) lm.font_ptr.toNat
  let m := writeLE 8 m (a + 16) lm.memmap_ptr.toNat
  let m := writeLE 8 m (a + 24) lm.load_buf.toNat
  let m := writeLE 8 m (a + 32) lm.load_end.toNat
  let m := writeLE 8 m (a + 40) lm.peek_entry.toNat
  let m := writeLE 2 m (a + 48) lm.memmap_size.toNat
  let m := writeLE 2 m (a + 50) lm.scr_width.toNat
  let m := writeLE 2 m (a + 52) lm.scr_height.toNat
  let m := writeLE 2 m (a + 54) lm.boot_disk_io.toNat
  let m := writeLE 2 m (a + 56) lm.boot_disk_ctl.toNat
  let m := writeLE 1 m (a + 58) lm.is_boot_disk_slv.toNat
  let m := writeLE 1 m (a + 59) lm.red_pos.toNat
  let m := writeLE 1 m (a + 60) lm.green_pos.toNat
  let m := writeLE 1 m (a + 61) lm.blue_pos.toNat
  writeLE 1 m (a + 62) lm.rsrvd_pos.toNat

/-- `load_size_sec` -/
def sectorCount (load_size : BitVec 32) : BitVec 32 :=
  (load_size + BitVec.ofNat 32 CD_SECTOR_SIZE - 1) / BitVec.ofNat 32 CD_SECTOR_SIZE

/-- Where sector `i` of the image is stored. -/
def sectorPtr (load_buf : BitVec 64) (i : BitVec 32) : BitVec 32 :=
  load_buf.setWidth 32 + i * BitVec.ofNat 32 CD_SECTOR_SIZE

section load

variable {δ : Type} (read : Reader δ) (fuel : ℕ)

/-- One round of the loop that loads the image, with counter, memory and device; what
`cdrom_read_sector` returns is not looked at. -/
def loadSector (kernel_lba : BitVec 32) (load_buf : BitVec 64) (s : BitVec 32 × Mem × δ) :
    Option (BitVec 32 × Mem × δ) :=
  (read (kernel_lba + s.1) s.2.2).map (fun r =>
    (s.1 + 1, storeWords s.2.1 (sectorPtr load_buf s.1) r.1.words, r.2))

/-- `for (i = 0; i < load_size_sec; i++)` -/
def loadSectors (kernel_lba : BitVec 32) (load_buf : BitVec 64) (load_size : BitVec 32) (m : Mem)
    (d : δ) : Option (Mem × δ) :=
  (whileLoop (fun s : BitVec 32 × Mem × δ => decide (s.1 < sectorCount load_size))
    (loadSector read kernel_lba load_buf) fuel (0, m, d)).map Prod.snd

variable (st : Statics) (mem_map : List MemMap)

/-- `main` once the header is read. -/
def bootKernel (header : KernelHeader) (kernel_lba load_size : BitVec 32) (m : Mem) (d : δ) :
    Option (Outcome δ) :=
  match allocate mem_map header with
  | none => some (.halted .noMemory)
  | some lay => do
      let m ← buildTables fuel header lay m
      let (m, d) ← loadSectors read fuel kernel_lba lay.load_buf load_size m d
      let lm := fillLongModeData st.rm_data lay
      return .running
        { rip := header.start
          rsp := 0xFFFFFFFFFFFFFFF0
          rax := st.lm_data.setWidth 64
          cr3 := lay.page_tab.setWidth 64
          cr4 := 0xA0
          header
          load_size
          lm_data := lm
          mem := storeLongModeData m st.lm_data.toNat lm
          dev := d }

/-- `main` once the drive is initialised; the buffer starts cleared, as all of `.bss`. -/
def boot (m : Mem) (d : δ) : Option (Outcome δ) := do
  let ((kernel_lba, load_size), buf, d) ← cdromSearch read fuel kernel_name 0 (fun _ => 0) d
  if kernel_lba = 0 then
    return .halted .kernelNotFound
  let (r, d) ← read kernel_lba d
  let header := readHeader (r.store buf)
  bootKernel read fuel st mem_map header kernel_lba load_size m d

end load

/-- The whole of `main`. -/
def main {δ : Type} (dev : Device δ) (fuel : ℕ) (st : Statics) (mem_map : List MemMap) (m : Mem)
    (d : δ) : Option (Outcome δ) := do
  let (ret, cd, d) ← cdromInit dev fuel st.rm_data.boot_disk_io st.rm_data.boot_disk_ctl
    st.rm_data.is_boot_disk_slv d
  if ret ≠ 0 then
    return .halted .diskNotSupported
  boot (cdromReadSector dev fuel cd) fuel st mem_map m d

/-! ### How `bootKernel` ends -/

section inversion

variable {δ : Type} {read : Reader δ} {fuel : ℕ} {st : Statics} {mem_map : List MemMap}
  {h : KernelHeader} {kernel_lba load_size : BitVec 32} {m : Mem} {d : δ}

theorem bootKernel_halted {reason : Halt} :
    bootKernel read fuel st mem_map h kernel_lba load_size m d = some (.halted reason) ↔
      allocate mem_map h = none ∧ reason = .noMemory := by
  unfold bootKernel
  cases ha : allocate mem_map h with
  | none => simp [eq_comm]
  | some lay =>
      simp only [Option.bind_eq_bind, Option.bind_eq_some_iff, Option.pure_def, reduceCtorEq,
        false_and, iff_false]
      rintro ⟨m₁, -, m₂, -, he⟩
      cases he

/-- Everything that was done on the way to the kernel. -/
theorem bootKernel_running {j : Jump δ} :
    bootKernel read fuel st mem_map h kernel_lba load_size m d = some (.running j) ↔
      ∃ lay m₁ m₂ d', allocate mem_map h = some lay ∧ buildTables fuel h lay m = some m₁ ∧
        loadSectors read fuel kernel_lba lay.load_buf load_size m₁ d = some (m₂, d') ∧
        j = { rip := h.start
              rsp := 0xFFFFFFFFFFFFFFF0
              rax := st.lm_data.setWidth 64
              cr3 := lay.page_tab.setWidth 64
              cr4 := 0xA0
              header := h
              load_size
              lm_data := fillLongModeData st.rm_data lay
              mem := storeLongModeData m₂ st.lm_data.toNat (fillLongModeData st.rm_data lay)
              dev := d' } := by
  unfold bootKernel
  cases ha : allocate mem_map h with
  | none => simp
  | some lay =>
      simp only [Option.bind_eq_bind, Option.bind_eq_some_iff, Option.pure_def,
        Option.some.injEq, Outcome.running.injEq]
      constructor
      · rintro ⟨m₁, h₁, ⟨m₂, d'⟩, h₂, rfl⟩
        exact ⟨lay, m₁, m₂, d', rfl, h₁, h₂, rfl⟩
      · rintro ⟨lay', m₁, m₂, d', rfl, h₁, h₂, rfl⟩
        exact ⟨m₁, h₁, (m₂, d'), h₂, rfl⟩

end inversion

/-- **Allocation.**  Loading halts for lack of memory exactly when no region of the map fits the
request; otherwise the kernel goes to the first one that does, its three areas lie one after
the other without overlap, and all of them lie inside that region. -/
theorem bootKernel_allocation {δ : Type} (read : Reader δ) (fuel : ℕ) (st : Statics)
    {mem_map : List MemMap} {h : KernelHeader} (kernel_lba load_size : BitVec 32) (m : Mem) (d : δ)
    (hmap : ∀ e ∈ mem_map, e.base.toNat + e.len.toNat ≤ 2 ^ 52)
    (hs : (imageSize h).toNat + h.stack_size.toNat + 12 * 4096 < 2 ^ 32) :
    (bootKernel read fuel st mem_map h kernel_lba load_size m d = some (.halted .noMemory) ↔
      ∀ e ∈ mem_map, ¬ Fits ((imageSize h).toNat + h.stack_size.toNat + 12 * 4096) e) ∧
    ((∃ e ∈ mem_map, Fits ((imageSize h).toNat + h.stack_size.toNat + 12 * 4096) e) →
      ∃ e lay, allocate mem_map h = some lay ∧
        firstFit ((imageSize h).toNat + h.stack_size.toNat + 12 * 4096) mem_map = some e ∧
        lay.load_buf.toNat = roundUp 4096 e.base.toNat ∧
        lay.pages.toNat = lay.load_buf.toNat + roundUp 4096 (imageSize h).toNat ∧
        lay.stack.toNat = lay.pages.toNat + 10 * 4096 ∧
        lay.buf.toNat = lay.stack.toNat + h.stack_size.toNat ∧
        (Disjoint (Set.Ico lay.load_buf.toNat lay.pages.toNat)
            (Set.Ico lay.pages.toNat lay.stack.toNat) ∧
          Disjoint (Set.Ico lay.load_buf.toNat lay.pages.toNat)
            (Set.Ico lay.stack.toNat lay.buf.toNat) ∧
          Disjoint (Set.Ico lay.pages.toNat lay.stack.toNat)
            (Set.Ico lay.stack.toNat lay.buf.toNat)) ∧
        4096 ∣ lay.pages.toNat ∧
        Set.Ico lay.load_buf.toNat lay.buf.toNat ⊆
          Set.Ico e.base.toNat (e.base.toNat + e.len.toNat)) := by
  constructor
  · rw [bootKernel_halted, allocate_none_iff hmap hs]
    simp
  · rintro ⟨e, hmem, hfit⟩
    cases ha : allocate mem_map h with
    | none => exact absurd hfit ((allocate_none_iff hmap hs).mp ha e hmem)
    | some lay =>
        obtain ⟨e, hf, hL, hp, hlo, hhi⟩ := allocate_placed hmap hs ha
        exact ⟨e, lay, rfl, hf, hL, hp.pages_eq, hp.stack_eq, hp.buf_eq, hp.disjoint,
          hp.pages_aligned, Set.Ico_subset_Ico hlo hhi⟩

theorem bootKernel_allocation_pcMap : ∃ e, allocate pcMap smallKernel = some pcLayout ∧
    firstFit 0x13000 pcMap = some e ∧ Set.Ico 0x200000 0x211000 ⊆
      Set.Ico e.base.toNat (e.base.toNat + e.len.toNat) := by
  obtain ⟨-, hfits⟩ := bootKernel_allocation (diskReader (fun _ _ => 0)) 0 plainStatics
    (h := smallKernel) 20 0x3000 (fun _ => 0) () (by decide : ∀ e ∈ pcMap, _) (by decide)
  obtain ⟨e, lay, ha, hf, -, -, -, -, -, -, hin⟩ := hfits (by decide)
  obtain rfl := Option.some.inj (allocate_pcMap.symm.trans ha)
  exact ⟨e, ha, hf, hin⟩

end Ziemniak.Stage2
