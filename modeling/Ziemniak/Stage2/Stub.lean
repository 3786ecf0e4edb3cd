import Ziemniak.BareMetal.Loop
import Ziemniak.BareMetal.RealModeCode
import Ziemniak.BareMetal.Stages
import Ziemniak.Stage2.E820
import Ziemniak.Stage2.IdDrive
import Ziemniak.Stage2.VbeModes

/-! # The 16-bit half of the loader

`stub.asm` from `_start` to `load_gdt`, in memory: every stage leaves what it found in `rm_data`, at
`MEMMAP_SEG` or at the place of the font, and goes on with what the stage before left in the segment
registers and on the stack.  The first stage that gives up has its message printed.

A call of the BIOS writes its buffer and returns; an instruction is fetched from nowhere, so the
memory of the code is data like any other. -/

namespace Ziemniak.Stage2.Stub

open BareMetal BareMetal.RealMode

/-! ### The source -/

def ID_BM : BitVec 32 := 1 <<< 21
def LM_BM : BitVec 32 := 1 <<< 29
def VGA_FONT_DEST : BitVec 16 := 0x1000

def screen_pixels : BitVec 16 := 0x2022
def screen_mode : BitVec 16 := 0x2026

/-- The messages of `boot_fail16`. -/
inductive ErrMsg
  | SVGA_FAIL
  | E820_FAIL
  | A20_FAIL
  | NO_CPUID
  | NOT_64BIT
  | ID_DRIVE_FAIL
deriving DecidableEq, Repr

def ErrMsg.text : ErrMsg → String
  | SVGA_FAIL => "SVGA MODE NOT SUPPORTED"
  | E820_FAIL => "E820 FUNCTION NOT SUPPORTED"
  | A20_FAIL => "A20 GATE FAILED TO INITIALIZE"
  | NO_CPUID => "CPUID NOT SUPPORTED"
  | NOT_64BIT => "CPU IS NOT 64-BIT"
  | ID_DRIVE_FAIL => "BOOT DRIVE IDENTIFICATION FAILED"

/-- The labels of the messages and of the instructions behind the two calls. -/
structure Labels where
  message : ErrMsg → BitVec 16
  ret_e820 : BitVec 16
  ret_a20 : BitVec 16

/-- What the BIOS answers: the font is at `es:bp`, the bytes are those that function 4F00 writes. -/
structure Firmware where
  edd : EddReturn
  font_es : BitVec 16
  font_bp : BitVec 16
  vbeInfo : List (BitVec 8)
  video : VideoBios
  memory : List Response

/-- The processor: `popfd` is what the flags are after a number was popped into them. -/
structure Processor where
  flags : BitVec 32
  popfd : BitVec 32 → BitVec 32
  cpuid_80000000_eax : BitVec 32
  cpuid_80000001_edx : BitVec 32

/-- Port `0x92`, and whether the A20 line is on after a byte was written there. -/
structure Chipset where
  port92 : BitVec 8
  gate : BitVec 8 → Bool

def init16 (dl : BitVec 8) (s : Cpu16) : Cpu16 :=
  { s with
    ds := 0
    es := 0 }.setByte 0 (rmdLabel .boot_disk) dl

def id_drive (r : EddReturn) : Stage ErrMsg Cpu16 := fun s =>
  match idDrive s.a20 r s.mem with
  | some mem => some (.ok { s with
      si := r.off + 5
      ds := 0
      mem })
  | none => some (.error (.ID_DRIVE_FAIL, { s with
      si := edd_buf
      mem := int13 (store16 s.a20 s.mem 0 edd_buf EDD_BUF_SIZE) r }))

def check_cpuid (cpu : Processor) : Stage ErrMsg Cpu16 := fun s =>
  let s := s.pushd cpu.flags
  let s := s.pushd cpu.flags
  let s := s.setDword s.stack.ss s.stack.sp (s.dword s.stack.ss s.stack.sp ^^^ ID_BM)
  let (inverted, s) := s.popd
  let flags := cpu.popfd inverted
  let s := s.pushd flags
  let (eax, s) := s.popd
  let (ebx, s) := s.popd
  if (eax ^^^ ebx) &&& ID_BM ≠ 0 then some (.ok s) else some (.error (.NO_CPUID, s))

def check_ex_cpuid (cpu : Processor) : Stage ErrMsg Cpu16 :=
  .test (fun _ => 0x80000001 ≤ cpu.cpuid_80000000_eax) .NOT_64BIT

def check_long_mode (cpu : Processor) : Stage ErrMsg Cpu16 :=
  .test (fun _ => cpu.cpuid_80000001_edx &&& LM_BM != 0) .NOT_64BIT

def get_font (font_es font_bp : BitVec 16) (s : Cpu16) : Cpu16 :=
  let s := s.push s.ds
  let s := s.push s.es
  let s := s.push font_es
  let (ds, s) := s.pop
  let (es, s) := s.pop
  let s : Cpu16 := { s with
    ds
    es
    si := font_bp + BitVec.ofNat 16 (256 * 16)
    di := VGA_FONT_DEST + BitVec.ofNat 16 (256 * 16)
    mem := repMovsb s.a20 ds es (256 * 16) font_bp VGA_FONT_DEST s.mem }
  let (ds, s) := s.pop
  { s with ds }

def svga_init (vbeInfo : List (BitVec 8)) (s : Cpu16) : Cpu16 :=
  let s := s.setWord s.ds (rmdLabel .memmap_seg) MEMMAP_SEG
  { s with
    es := MEMMAP_SEG
    di := 0
    mem := writeBytes s.mem (linear s.a20 MEMMAP_SEG 0) vbeInfo }

section video

variable (bios : VideoBios)

/-- Function 4F01: the information about mode `cx` at `es:di`. -/
def queryMode (cx : BitVec 16) (s : Cpu16) : Cpu16 :=
  match bios.query cx with
  | none => s
  | some info =>
      let a := linear s.a20 s.es s.di
      { s with mem := fun x => if a ≤ x ∧ x < a + 256 then info.buffer (x - a) else s.mem x }

/-- From `.getMaximum` to `.checknext`. -/
def checkMode (s : Cpu16) : Cpu16 :=
  let s := queryMode bios (s.word s.fs s.si ||| 0x4000) s
  if s.byte s.es (s.di + 0x19) ≠ 32 then s
  else if s.word s.es s.di &&& 0x0001 = 0 then s
  else
    let ax := s.word s.es (s.di + 0x12)
    let bx := s.word s.es (s.di + 0x14)
    if 1000 ≤ bx then s
    else
      let prod : BitVec 32 := ax.setWidth 32 * bx.setWidth 32
      let dx : BitVec 16 := (prod >>> 16).setWidth 16
      let edx : BitVec 32 := (0x8765 : BitVec 16) ++ dx
      let edx : BitVec 32 := ((edx <<< 16) >>> 16).setWidth 16 ++ prod.setWidth 16
      if edx ≤ s.dword s.ds screen_pixels then s
      else
        let cx := s.word s.fs s.si ||| 0x4000
        (s.setWord s.ds screen_mode cx).setDword s.ds screen_pixels edx

def getMaximum (s : Cpu16) : Cpu16 :=
  let s := checkMode bios s
  { s with si := s.si + 2 }

def findVBEmode (fuel : ℕ) : Stage ErrMsg Cpu16 := fun s =>
  if s.byte s.es 0x05 < 0x02 then some (.ok (s.setWord s.ds screen_mode 0x4115))
  else
    let s : Cpu16 := { s with
      si := s.word s.es 0x0E
      fs := s.word s.es 0x10
      di := s.di + 512 }
    (whileLoop (fun s => s.word s.fs s.si != 0xFFFF) (fun s => some (getMaximum bios s)) fuel
      (getMaximum bios s)).map .ok

/-- The bytes that `.SetVBE` saves of the information at `es`. -/
def saveMode (s : Cpu16) : Cpu16 :=
  let s := s.setDword s.ds (rmdLabel .framebuf_ptr) (s.dword s.es 0x28)
  let s := s.setByte s.ds (rmdLabel .red_pos) (s.byte s.es 0x20)
  let s := s.setByte s.ds (rmdLabel .green_pos) (s.byte s.es 0x22)
  let s := s.setByte s.ds (rmdLabel .blue_pos) (s.byte s.es 0x24)
  let s := s.setByte s.ds (rmdLabel .rsrvd_pos) (s.byte s.es 0x26)
  let s := s.setWord s.ds (rmdLabel .scr_width) (s.word s.es 0x12)
  s.setWord s.ds (rmdLabel .scr_height) (s.word s.es 0x14)

def setVBE : Stage ErrMsg Cpu16 := fun s =>
  let cx := s.word s.ds screen_mode
  let s : Cpu16 := queryMode bios cx { s with di := 0 }
  if (bios.query cx).isNone then some (.error (.SVGA_FAIL, s))
  else
    let s := saveMode s
    if bios.setMode (s.word s.ds screen_mode) then some (.ok s)
    else some (.error (.SVGA_FAIL, s))

end video

/-- The state after the calls of `e820`. -/
def e820Calls : List Response → E820 → E820
  | [], s => s
  | r :: rs, s =>
      if r.carry then { s with mem := int15 s r }
      else if r.eax ≠ SMAP then { s with mem := int15 s r }
      else if r.ebx ≠ 0 then e820Calls rs (examine s r)
      else examine s r

/-- `map_memory` and `save_memmap` -/
def map_memory (ret : BitVec 16) (answers : List Response) : Stage ErrMsg Cpu16 := fun s =>
  let s : Cpu16 := { s with
    es := MEMMAP_SEG
    di := 0 }.push ret
  match e820 s.mem answers with
  | none => none
  | some .fail =>
      let e := e820Calls answers (start s.mem)
      some (.error (.E820_FAIL, { s with
        di := e.di
        mem := e.mem }.pop.2))
  | some (.done e) =>
      let s : Cpu16 := { s with
        di := e.di
        mem := e.mem }.pop.2
      some (.ok (s.setWord s.ds (rmdLabel .memmap_size) e.bp))

/-- `check_a20` between the registers it saves: whether the two bytes are one. -/
def compareA20 (s : Cpu16) : Bool × Cpu16 :=
  let s := s.push (0xFF#8 ++ s.byte s.es s.di)
  let s := s.push (0xFF#8 ++ s.byte s.ds s.si)
  let s := s.setByte s.es s.di 0x00
  let s := s.setByte s.ds s.si 0xFF
  let equal := s.byte s.es s.di == 0xFF
  let (ax, s) := s.pop
  let s := s.setByte s.ds s.si (ax.setWidth 8)
  let (ax, s) := s.pop
  (equal, s.setByte s.es s.di (ax.setWidth 8))

/-- `check_a20`, with `ax` at its end. -/
def check_a20 (flags ret : BitVec 16) (s : Cpu16) : BitVec 16 × Cpu16 :=
  let s := (s.push ret).push flags
  let s := (s.push s.ds).push s.es
  let s := (s.push s.di).push s.si
  let (equal, s) := compareA20 { s with
    es := 0
    ds := 0xFFFF
    di := 0x0500
    si := 0x0510 }
  let (si, s) := s.pop
  let (di, s) := s.pop
  let (es, s) := s.pop
  let (ds, s) := s.pop
  let s := s.pop.2.pop.2
  (if equal then 0 else 1, { s with
    ds
    es
    si
    di })

def activate_a20 (chipset : Chipset) (flags ret : BitVec 16) : Stage ErrMsg Cpu16 := fun s =>
  let (ax, s) := check_a20 flags ret { s with a20 := chipset.gate (chipset.port92 ||| 2) }
  if ax = 0x01 then some (.ok s) else some (.error (.A20_FAIL, s))

/-- From `_start` to `load_gdt`. -/
def stages (fw : Firmware) (cpu : Processor) (chipset : Chipset) (labels : Labels) (fuel : ℕ)
    (dl : BitVec 8) : List (Stage ErrMsg Cpu16) :=
  [.work (init16 dl), id_drive fw.edd, check_cpuid cpu, check_ex_cpuid cpu, check_long_mode cpu,
    .work (get_font fw.font_es fw.font_bp), .work (svga_init fw.vbeInfo),
    findVBEmode fw.video fuel, setVBE fw.video, map_memory labels.ret_e820 fw.memory,
    activate_a20 chipset (cpu.flags.setWidth 16) labels.ret_a20]

/-- `boot_fail16`; the text that is printed. -/
def boot_fail16 (labels : Labels) (fuel : ℕ) (e : ErrMsg × Cpu16) : Option (List (BitVec 8)) :=
  printLoop e.2.a20 e.2.mem e.2.ds fuel (labels.message e.1)

/-! ### What is in memory -/

/-- `rm_data`, as `main` reads it. -/
def readRealMode (m : Mem) : RealModeData where
  framebuf_ptr := BitVec.ofNat 32 (readMember m rm_data (blockFrom 0 rmDataBlock) .framebuf_ptr)
  font_ptr := BitVec.ofNat 32 (readMember m rm_data (blockFrom 0 rmDataBlock) .font_ptr)
  red_pos := BitVec.ofNat 8 (readMember m rm_data (blockFrom 0 rmDataBlock) .red_pos)
  green_pos := BitVec.ofNat 8 (readMember m rm_data (blockFrom 0 rmDataBlock) .green_pos)
  blue_pos := BitVec.ofNat 8 (readMember m rm_data (blockFrom 0 rmDataBlock) .blue_pos)
  rsrvd_pos := BitVec.ofNat 8 (readMember m rm_data (blockFrom 0 rmDataBlock) .rsrvd_pos)
  memmap_seg := BitVec.ofNat 16 (readMember m rm_data (blockFrom 0 rmDataBlock) .memmap_seg)
  memmap_size := BitVec.ofNat 16 (readMember m rm_data (blockFrom 0 rmDataBlock) .memmap_size)
  scr_width := BitVec.ofNat 16 (readMember m rm_data (blockFrom 0 rmDataBlock) .scr_width)
  scr_height := BitVec.ofNat 16 (readMember m rm_data (blockFrom 0 rmDataBlock) .scr_height)
  boot_disk := BitVec.ofNat 8 (readMember m rm_data (blockFrom 0 rmDataBlock) .boot_disk)
  is_boot_disk_slv :=
    BitVec.ofNat 8 (readMember m rm_data (blockFrom 0 rmDataBlock) .is_boot_disk_slv)
  boot_disk_io := BitVec.ofNat 16 (readMember m rm_data (blockFrom 0 rmDataBlock) .boot_disk_io)
  boot_disk_ctl := BitVec.ofNat 16 (readMember m rm_data (blockFrom 0 rmDataBlock) .boot_disk_ctl)

theorem readRealMode_eq (m : Mem) : readRealMode m =
    { framebuf_ptr := BitVec.ofNat 32 (readLE 4 m 0x2008)
      font_ptr := BitVec.ofNat 32 (readLE 4 m 0x200C)
      red_pos := BitVec.ofNat 8 (readLE 1 m 0x2010)
      green_pos := BitVec.ofNat 8 (readLE 1 m 0x2011)
      blue_pos := BitVec.ofNat 8 (readLE 1 m 0x2012)
      rsrvd_pos := BitVec.ofNat 8 (readLE 1 m 0x2013)
      memmap_seg := BitVec.ofNat 16 (readLE 2 m 0x2014)
      memmap_size := BitVec.ofNat 16 (readLE 2 m 0x2016)
      scr_width := BitVec.ofNat 16 (readLE 2 m 0x2018)
      scr_height := BitVec.ofNat 16 (readLE 2 m 0x201A)
      boot_disk := BitVec.ofNat 8 (readLE 1 m 0x201C)
      is_boot_disk_slv := BitVec.ofNat 8 (readLE 1 m 0x201D)
      boot_disk_io := BitVec.ofNat 16 (readLE 2 m 0x201E)
      boot_disk_ctl := BitVec.ofNat 16 (readLE 2 m 0x2020) } := rfl

theorem readRealMode_congr {m m' : Mem} (h : ∀ x, 0x2008 ≤ x → x < 0x2022 → m x = m' x) :
    readRealMode m = readRealMode m' := by
  have hread : ∀ {n a}, 0x2008 ≤ a → a + n ≤ 0x2022 → readLE n m a = readLE n m' a :=
    fun hlo hhi => readLE_congr fun x hx hx' => h x (by omega) (by omega)
  rw [readRealMode_eq, readRealMode_eq]
  simp (disch := omega) only [hread]

theorem ofNat_readLE_writeLE (w n : ℕ) (h : 2 ^ w = 256 ^ n) (m : Mem) (a : ℕ) (v : BitVec w) :
    BitVec.ofNat w (readLE n (writeLE n m a v.toNat) a) = v := by
  have hv := v.isLt
  rw [readLE_writeLE, Nat.mod_eq_of_lt (by omega), BitVec.ofNat_toNat, BitVec.setWidth_eq]

/-- The stack that the boot sector leaves. -/
def bootStack : Stack := .topAt 0x7000 0x7FFF0

/-! ### Blocks that use the stack -/

theorem check_cpuid_eq {s : Cpu16} (h : s.stack = bootStack) (cpu : Processor) :
    ∃ mem, (∀ x, (x < 0x7FFE0 ∨ 0x7FFF0 ≤ x) → mem x = s.mem x) ∧
      check_cpuid cpu s =
        if (cpu.popfd (cpu.flags ^^^ ID_BM) ^^^ cpu.flags) &&& ID_BM ≠ 0 then
          some (.ok { s with mem })
        else some (.error (.NO_CPUID, { s with mem })) := by
  obtain ⟨ds, es, fs, si, di, stack, a20, m⟩ := s
  obtain rfl : stack = bootStack := h
  have htop : (Stack.topAt 0x7000 0x7FFE8).ss = 0x7000 ∧
      (Stack.topAt 0x7000 0x7FFE8).sp = 0xFFE8 := by decide
  unfold check_cpuid bootStack
  simp (disch := decide) only [Cpu16.pushd_topAt, Cpu16.popd_topAt, Cpu16.dword_low,
    Cpu16.setDword_low, htop, Nat.reduceSub, Nat.reduceAdd, Nat.reduceMul, BitVec.reduceToNat,
    ofNat_readLE_writeLE 32 4 rfl, writeLE_writeLE, readLE_writeLE_disjoint]
  refine ⟨_, ?_, rfl⟩
  intro x hx
  rw [writeLE_of_not_mem (by omega), writeLE_of_not_mem (by omega)]

theorem get_font_eq {s : Cpu16} {font_es font_bp : BitVec 16} {src : ℕ}
    (hstack : s.stack = bootStack) (hes : s.es = 0)
    (hsrc : src = font_es.toNat * 16 + font_bp.toNat)
    (hbp : font_bp.toNat + 4096 ≤ 2 ^ 16) (hlow : src + 4096 ≤ 2 ^ 20)
    (hdisj : src + 4096 ≤ 0x1000 ∨ 0x2000 ≤ src) :
    ∃ m : Mem, (∀ x, (x < 0x7FFE0 ∨ 0x7FFF0 ≤ x) → m x = s.mem x) ∧
      get_font font_es font_bp s = { s with
        si := font_bp + BitVec.ofNat 16 (256 * 16)
        di := VGA_FONT_DEST + BitVec.ofNat 16 (256 * 16)
        mem := fun x =>
          if 0x1000 ≤ x ∧ x < 0x1000 + 4096 then m (src + (x - 0x1000)) else m x } := by
  obtain ⟨ds, es, fs, si, di, stack, a20, m⟩ := s
  obtain rfl : stack = bootStack := hstack
  obtain rfl : es = 0 := hes
  have hcopy : ∀ m, repMovsb a20 font_es 0 4096 font_bp VGA_FONT_DEST m =
      fun x => if 0x1000 ≤ x ∧ x < 0x1000 + 4096 then m (src + (x - 0x1000)) else m x := by
    intro m
    funext x
    have hdst : 0x1000 = (0 : BitVec 16).toNat * 16 + VGA_FONT_DEST.toNat := rfl
    exact repMovsb_apply hsrc hdst hbp (by decide) hlow (by decide) hdisj x
  have hds : ∀ m : Mem, readLE 2 (fun x => if 0x1000 ≤ x ∧ x < 0x2000 then m (src + (x - 0x1000))
      else m x) 0x7FFEE = readLE 2 m 0x7FFEE :=
    fun m => readLE_congr fun x hx _ => if_neg (by omega)
  unfold get_font bootStack
  simp (disch := decide) only [Cpu16.push_topAt, Cpu16.pop_topAt, Nat.reduceSub, Nat.reduceAdd,
    Nat.reduceMul, ofNat_readLE_writeLE 16 2 rfl, readLE_writeLE_disjoint, hcopy, hds]
  refine ⟨_, ?_, rfl⟩
  intro x hx
  simp (disch := omega) only [writeLE_of_not_mem]

theorem compareA20_eq (fs : BitVec 16) (a20 : Bool) (m : Mem) :
    ∃ m' : Mem, (∀ x, (x < 0x7FFE0 ∨ 0x7FFE4 ≤ x) → m' x = m x) ∧
      compareA20 ⟨0xFFFF, 0, fs, 0x0510, 0x0500, .topAt 0x7000 0x7FFE4, a20, m⟩ =
        (!a20, ⟨0xFFFF, 0, fs, 0x0510, 0x0500, .topAt 0x7000 0x7FFE4, a20, m'⟩) := by
  obtain ⟨b, hb⟩ : ∃ b, b = linear a20 0xFFFF 0x0510 := ⟨_, rfl⟩
  have hload : ∀ st (m : Mem),
      Cpu16.byte ⟨0xFFFF, 0, fs, 0x0510, 0x0500, st, a20, m⟩ 0xFFFF 0x0510 = m b := by
    intro st m
    rw [hb]
    rfl
  have hstore : ∀ st (m : Mem) v,
      Cpu16.setByte ⟨0xFFFF, 0, fs, 0x0510, 0x0500, st, a20, m⟩ 0xFFFF 0x0510 v =
        ⟨0xFFFF, 0, fs, 0x0510, 0x0500, st, a20, write8 m b v⟩ := by
    intro st m v
    rw [hb]
    rfl
  have hbcases : b = (if a20 then 0x100500 else 0x500) := by
    rw [hb]
    cases a20 <;> rfl
  have hlow : ∀ c d : BitVec 8, (c ++ d : BitVec 16).setWidth 8 = d :=
    fun c d => setWidth_append_low c d
  have hfar : (0x7FFE2 : ℕ) ≠ b ∧ b < 0x7FFE0 ∨ 0x7FFE4 ≤ b := by
    rw [hbcases]
    cases a20 <;> decide
  unfold compareA20
  simp (disch := decide) only [Cpu16.push_topAt, hload, hstore, Nat.reduceSub, Nat.reduceAdd,
    Nat.reduceMul, Cpu16.byte_low, Cpu16.setByte_low, BitVec.reduceToNat]
  simp (disch := first | decide | omega) only [Cpu16.pop_topAt, Cpu16.setByte_low, hstore, hlow,
    BitVec.reduceToNat, Nat.reduceMul, Nat.reduceAdd, readLE_write8, readLE_writeLE_disjoint,
    ofNat_readLE_writeLE 16 2 rfl, writeLE_of_not_mem]
  obtain ⟨M, hM⟩ : ∃ M, M = writeLE 2 (writeLE 2 m 0x7FFE2 (0xFF#8 ++ m 0x500).toNat) 0x7FFE0
    (0xFF#8 ++ m b).toNat := ⟨_, rfl⟩
  rw [← hM]
  refine ⟨write8 (write8 (write8 (write8 M 0x500 0) b 0xFF) b (m b)) 0x500 (m 0x500), ?_, ?_⟩
  · intro x hx
    unfold write8
    by_cases h1 : x = 0x500
    · rw [if_pos h1, h1]
    · by_cases h2 : x = b
      · rw [if_neg h1, if_pos h2, h2]
      · rw [if_neg h1, if_neg h2, if_neg h2, if_neg h1, hM, writeLE_of_not_mem (by omega),
          writeLE_of_not_mem (by omega)]
  · refine Prod.ext ?_ rfl
    unfold write8
    rw [hbcases]
    cases a20 <;> rfl

/-- **The test of the A20 line**: `ax` is 1 exactly when it is on, and everything but the memory
below the stack is as it was. -/
theorem check_a20_eq {s : Cpu16} (hstack : s.stack = bootStack) (flags ret : BitVec 16) :
    ∃ m : Mem, (∀ x, (x < 0x7FFE0 ∨ 0x7FFF0 ≤ x) → m x = s.mem x) ∧
      check_a20 flags ret s = (if s.a20 then 1 else 0, { s with mem := m }) := by
  obtain ⟨ds, es, fs, si, di, stack, a20, m⟩ := s
  obtain rfl : stack = bootStack := hstack
  unfold check_a20 bootStack
  simp (disch := decide) only [Cpu16.push_topAt, Nat.reduceSub]
  obtain ⟨m₁, hm₁⟩ : ∃ m₁, m₁ = writeLE 2 (writeLE 2 (writeLE 2 (writeLE 2 (writeLE 2 (writeLE 2 m
    524270 ret.toNat) 524268 flags.toNat) 524266 ds.toNat) 524264 es.toNat) 524262 di.toNat) 524260
    si.toNat := ⟨_, rfl⟩
  rw [← hm₁]
  obtain ⟨m₂, hframe, hcompare⟩ := compareA20_eq fs a20 m₁
  rw [hcompare]
  simp (disch := decide) only [Cpu16.pop_topAt, Nat.reduceAdd]
  have hkept : ∀ a, 0x7FFE4 ≤ a → readLE 2 m₂ a = readLE 2 m₁ a :=
    fun a ha => readLE_congr fun x hx _ => hframe x (Or.inr (by omega))
  simp (disch := decide) only [hkept, hm₁, ofNat_readLE_writeLE 16 2 rfl, readLE_writeLE_disjoint]
  refine ⟨m₂, ?_, ?_⟩
  · intro x hx
    rw [hframe x (by omega), hm₁]
    simp (disch := omega) only [writeLE_of_not_mem]
  · cases a20 <;> rfl

/-! ### What the stages touch -/

/-- `rm_data`, the buffer for the drive, the stack, and one byte `b`. -/
def Collected (b x : ℕ) : Prop :=
  (0x2008 ≤ x ∧ x < 0x2022) ∨ (0x2028 ≤ x ∧ x < 0x2046) ∨ (0x7FFE0 ≤ x ∧ x < 0x7FFF0) ∨ x = b

/-- The variables of the mode search and the buffer at `MEMMAP_SEG` as well. -/
def Touched (b x : ℕ) : Prop :=
  Collected b x ∨ (0x2022 ≤ x ∧ x < 0x2028) ∨ (0xA000 ≤ x ∧ x < 0x1A018)

/-- Between two stages: the registers that everything relies on, and memory `m` outside `W`. -/
structure At (W : ℕ → Prop) (m : Mem) (a20 : Bool) (es : BitVec 16) (v : RealModeData) (s : Cpu16) :
    Prop where
  ds : s.ds = 0
  es : s.es = es
  stack : s.stack = bootStack
  a20 : s.a20 = a20
  frame : ∀ x, ¬ W x → s.mem x = m x
  data : readRealMode s.mem = v

/-- Where a stage gives up. -/
def GivesUp (b : ℕ) (m : Mem) (e : ErrMsg × Cpu16) : Prop :=
  e.2.ds = 0 ∧ ∀ x, ¬ Touched b x → ¬ (0x1000 ≤ x ∧ x < 0x2000) → e.2.mem x = m x

end Ziemniak.Stage2.Stub
