import Ziemniak.BareMetal.Words

/-! # Data of the second-stage loader

The records of `stage2.c` and the rounding macros of `defs.h`, with the field names of the
source.  A `uintN_t` is a `BitVec N`; arithmetic wraps exactly where the C code does.

`Page` is the bit-field record of a paging entry and `Page.word` the 64-bit word it is stored
as (the first field in the lowest bits).  `genPml4ePdpePte` and `genPde` are the two functions
that fill it. -/

namespace Ziemniak.Stage2

open BareMetal

/-! ### Macros -/

def CD_SECTOR_SIZE : ℕ := 2048
def FREE_RAM : BitVec 32 := 1
def MEMMAP_SEG : BitVec 16 := 0x0A00

/-- `sizeof (struct mem_map)` -/
def MEM_MAP_SIZE : ℕ := 24

def pageUp (x : BitVec 64) : BitVec 64 := (x + 4095) &&& 0xFFFFFFFFFFFFF000

def pageCnt (x : BitVec 64) : BitVec 64 := pageUp x / 4096

theorem pageUp_toNat (x : BitVec 64) :
    (pageUp x).toNat = (x.toNat + 4095) % 2 ^ 64 / 4096 * 4096 := by
  have h : (pageUp x).toNat = (x + 4095).toNat / 2 ^ 12 * 2 ^ 12 := toNat_and_highMask _ 12
  rw [h, BitVec.toNat_add]
  rfl

theorem pageUp_mod (x : BitVec 64) : (pageUp x).toNat % 4096 = 0 := by
  rw [pageUp_toNat]; omega

theorem pageCnt_toNat (x : BitVec 64) : (pageCnt x).toNat = (pageUp x).toNat / 4096 := by
  simp [pageCnt]

/-! ### Records -/

/-- One entry of the memory map. -/
structure MemMap where
  base : BitVec 64
  len : BitVec 64
  type : BitVec 32
  attrs : BitVec 32
deriving DecidableEq, Repr

/-- The table at the start of the kernel image. -/
structure KernelHeader where
  start : BitVec 64
  stext : BitVec 64
  etext : BitVec 64
  sdata : BitVec 64
  edata : BitVec 64
  srodata : BitVec 64
  erodata : BitVec 64
  sbss : BitVec 64
  ebss : BitVec 64
  stack_size : BitVec 64
deriving DecidableEq, Repr

/-- What the real-mode code collected. -/
structure RealModeData where
  framebuf_ptr : BitVec 32
  font_ptr : BitVec 32
  red_pos : BitVec 8
  green_pos : BitVec 8
  blue_pos : BitVec 8
  rsrvd_pos : BitVec 8
  memmap_seg : BitVec 16
  memmap_size : BitVec 16
  scr_width : BitVec 16
  scr_height : BitVec 16
  boot_disk : BitVec 8
  is_boot_disk_slv : BitVec 8
  boot_disk_io : BitVec 16
  boot_disk_ctl : BitVec 16
deriving DecidableEq, Repr

/-- What is handed to the kernel. -/
structure LongModeData where
  framebuf_ptr : BitVec 64
  font_ptr : BitVec 64
  memmap_ptr : BitVec 64
  load_buf : BitVec 64
  load_end : BitVec 64
  peek_entry : BitVec 64
  memmap_size : BitVec 16
  scr_width : BitVec 16
  scr_height : BitVec 16
  boot_disk_io : BitVec 16
  boot_disk_ctl : BitVec 16
  is_boot_disk_slv : BitVec 8
  red_pos : BitVec 8
  green_pos : BitVec 8
  blue_pos : BitVec 8
  rsrvd_pos : BitVec 8
deriving DecidableEq, Repr

/-- A paging entry. -/
structure Page where
  pres : BitVec 1 := 0
  writ : BitVec 1 := 0
  user : BitVec 1 := 0
  wr_th : BitVec 1 := 0
  d_cach : BitVec 1 := 0
  accd : BitVec 1 := 0
  dirty : BitVec 1 := 0
  big : BitVec 1 := 0
  glob : BitVec 1 := 0
  avl2 : BitVec 3 := 0
  addr : BitVec 40 := 0
  avl1 : BitVec 11 := 0
  nx : BitVec 1 := 0
deriving DecidableEq, Repr

/-- The 64-bit word of an entry. -/
def Page.word (p : Page) : BitVec 64 :=
  p.nx ++ p.avl1 ++ p.addr ++ p.avl2 ++ p.glob ++ p.big ++ p.dirty ++ p.accd ++ p.d_cach ++
    p.wr_th ++ p.user ++ p.writ ++ p.pres

def genPml4ePdpePte (addr : BitVec 32) : Page :=
  let ptr := addr.setWidth 64
  { addr := (ptr >>> 12).setWidth 40, writ := 1, pres := 1 }

def genPde (addr : BitVec 32) (big : BitVec 64) : Page :=
  let ptr := addr.setWidth 64
  { addr := (ptr >>> 12).setWidth 40, writ := 1, big := big.setWidth 1, pres := 1 }

theorem genPml4ePdpePte_word (addr : BitVec 32) :
    (genPml4ePdpePte addr).word.toNat = addr.toNat / 4096 * 4096 + 3 := by
  have := addr.isLt
  unfold Page.word genPml4ePdpePte
  simp only [toNat_append_eq]
  simp [Nat.shiftRight_eq_div_pow]
  omega

theorem genPde_zero (addr : BitVec 32) : genPde addr 0 = genPml4ePdpePte addr := rfl

end Ziemniak.Stage2
