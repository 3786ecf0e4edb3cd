import Ziemniak.BareMetal.LogText
import Ziemniak.Stage1.BootSector
import Ziemniak.Stage2.StubVideo

/-! # From the boot sector to `main`

The stages of the 16-bit code one after the other.  At the end `main` finds in `rm_data` the drive
and the mode that the BIOS names, the font and the memory map in their places, the A20 line on and
the rest of the image as the boot sector left it (`stub_hands_over`).  A stage that gives up leaves
every message where it was, so the right one is printed (`stub_messages`).  With the boot sector in
front this makes up the boot from the disk (`boot_ends`). -/

namespace Ziemniak.Stage2.Stub

open BareMetal BareMetal.RealMode

/-- Where the BIOS keeps its font. -/
def Firmware.font (fw : Firmware) : ℕ := fw.font_es.toNat * 16 + fw.font_bp.toNat

/-- The one byte outside `rm_data`, the buffers and the stack that can be lost. -/
def Firmware.lost (fw : Firmware) (a20 : Bool) : ℕ := slvAddr a20 fw.edd

/-- The tables of the BIOS lie outside what the loader writes, and its answers fit their buffers. -/
structure Firmware.Fits (fw : Firmware) (a20 : Bool) : Prop where
  table : TableOutside a20 fw.edd
  slave : fw.edd.seg = 0 ∨ ¬ Used (fw.lost a20)
  font_segment : fw.font_bp.toNat + 4096 ≤ 2 ^ 16
  font_low : fw.font + 4096 ≤ 2 ^ 20
  font_apart : fw.font + 4096 ≤ 0x1000 ∨ 0x2000 ≤ fw.font
  font_kept : ∀ i < 4096, ¬ Collected (fw.lost a20) (fw.font + i)
  info : fw.vbeInfo.length ≤ 512
  entries : ∀ r ∈ fw.memory, r.bytes.length ≤ 24
  final : ∃ r ∈ fw.memory, final r = true

/-- `rm_data` behind `id_drive`. -/
def withDrive (fw : Firmware) (a20 : Bool) (m : Mem) (dl : BitVec 8) : RealModeData :=
  { readRealMode m with
    boot_disk := dl
    is_boot_disk_slv :=
      if fw.edd.seg = 0 then tableSlv a20 fw.edd m else (readRealMode m).is_boot_disk_slv
    boot_disk_io := tableIo a20 fw.edd m
    boot_disk_ctl := tableCtl a20 fw.edd m }

/-- In front of `findVBEmode`. -/
def collected (fw : Firmware) (a20 : Bool) (m : Mem) (dl : BitVec 8) : RealModeData :=
  { withDrive fw a20 m dl with memmap_seg := MEMMAP_SEG }

/-- Memory with the font and the buffer of the video BIOS. -/
def Firmware.shown (fw : Firmware) (m : Mem) : Mem :=
  writeBytes (withFont fw.font m) 0xA000 fw.vbeInfo

/-- The mode that the search ends with. -/
def Firmware.mode (fw : Firmware) (a20 : Bool) (m : Mem) (fuel : ℕ) : BitVec 16 :=
  (searchAt fw.video a20 (fw.shown m) fuel).getD 0

/-- What becomes of `rm_data`: the members of `mode`, and the size of the map. -/
def Filled (fw : Firmware) (a20 : Bool) (m : Mem) (dl : BitVec 8) (mode : BitVec 16)
    (v : RealModeData) : Prop :=
  ∃ v' size, Stage2.setVBE fw.video mode (collected fw a20 m dl) = some v' ∧
    v = { v' with memmap_size := size }

/-- What `main` finds, behind a start in memory `m`. -/
structure HandsOver (fw : Firmware) (a20 : Bool) (m : Mem) (dl : BitVec 8) (mode : BitVec 16)
    (s : Cpu16) : Prop where
  line : s.a20 = true
  frame : ∀ x, ¬ Touched (fw.lost a20) x → ¬ (0x1000 ≤ x ∧ x < 0x2000) → s.mem x = m x
  font : ∀ i < 4096, s.mem (0x1000 + i) = m (fw.font + i)
  data : Filled fw a20 m dl mode (readRealMode s.mem)
  map : ∃ m' e, e820 m' fw.memory = some (.done e) ∧ (readRealMode s.mem).memmap_size = e.bp ∧
    ∀ x, 0xA000 ≤ x → x < 0x1A018 → s.mem x = e.mem x

section stub

variable {fw : Firmware} {a20 : Bool} {m : Mem}

theorem GivesUp.rebase {b : ℕ} {m' : Mem} {e : ErrMsg × Cpu16}
    (hm : ∀ x, ¬ Touched b x → ¬ (0x1000 ≤ x ∧ x < 0x2000) → m x = m' x) (h : GivesUp b m e) :
    GivesUp b m' e := ⟨h.1, fun x hx hfont => (h.2 x hx hfont).trans (hm x hx hfont)⟩

theorem withFont_of_not_mem {src x : ℕ} (h : ¬ (0x1000 ≤ x ∧ x < 0x2000)) :
    withFont src m x = m x := if_neg h

theorem Firmware.Fits.shown_apply (h : fw.Fits a20) {b x : ℕ} (hx : ¬ Touched b x) :
    fw.shown m x = withFont fw.font m x := by
  have hlen := h.info
  unfold Touched at hx
  exact writeBytes_of_not_mem (by omega)

/-- A byte that is lost is not one of those that the search works with. -/
theorem Firmware.Fits.lost_ne (h : fw.Fits a20) {x : ℕ}
    (hx : (0x1000 ≤ x ∧ x < 0x2008) ∨ (0x2022 ≤ x ∧ x < 0x1A018)) : x ≠ fw.lost a20 := by
  rintro rfl
  rcases h.slave with hseg | hfar
  · have hlost : fw.lost a20 = 0x201D := linear_eq_offset.mpr hseg
    omega
  · unfold Used at hfar
    omega

/-- What the machine must have, in the order in which the stages ask for it. -/
def requirements (fw : Firmware) (cpu : Processor) (chipset : Chipset) (mode : BitVec 16) :
    List (Bool × ErrMsg) :=
  [(described fw.edd, .ID_DRIVE_FAIL), (cpu.flips, .NO_CPUID),
    (decide (0x80000001 ≤ cpu.cpuid_80000000_eax), .NOT_64BIT),
    (cpu.cpuid_80000001_edx &&& LM_BM != 0, .NOT_64BIT),
    ((fw.video.query mode).isSome && fw.video.setMode mode, .SVGA_FAIL),
    (mapped fw.memory, .E820_FAIL), (chipset.gate (chipset.port92 ||| 2), .A20_FAIL)]

/-- Entered by the boot sector in memory `m`. -/
def Entry (a20 : Bool) (m : Mem) (s : Cpu16) : Prop :=
  s.stack = bootStack ∧ s.a20 = a20 ∧ s.mem = m

/-- Behind the stages `line` is on, `rm_data` is filled and the map is in its place. -/
def Ready (fw : Firmware) (a20 line : Bool) (m : Mem) (dl : BitVec 8) (mode : BitVec 16)
    (s : Cpu16) : Prop :=
  ∃ v, At (Touched (fw.lost a20)) (fw.shown m) line MEMMAP_SEG v s ∧ Filled fw a20 m dl mode v ∧
    MapSaved (fw.lost a20) (fw.shown m) fw.memory v s.mem

/-- **The whole run.** -/
theorem stub_contract (h : fw.Fits a20) {l : List (BitVec 16)}
    (hl : ModesAt (fw.lost a20) a20 (fw.shown m) l) {fuel : ℕ} (hfuel : l.length ≤ fuel + 1)
    (cpu : Processor) (chipset : Chipset) (labels : Labels) (dl : BitVec 8) :
    Stage.Contract (Entry a20 m) (Stage.run (stages fw cpu chipset labels fuel dl))
      (Ready fw a20 true m dl (fw.mode a20 m fuel)) (GivesUp (fw.lost a20) m)
      (Stage.firstUnmet (requirements fw cpu chipset (fw.mode a20 m fuel))) := by
  have hfonted : ∀ x, ¬ Touched (fw.lost a20) x → ¬ (0x1000 ≤ x ∧ x < 0x2000) →
      withFont fw.font m x = m x := fun x _ hx => withFont_of_not_mem hx
  have hshown : ∀ x, ¬ Touched (fw.lost a20) x → ¬ (0x1000 ≤ x ∧ x < 0x2000) →
      fw.shown m x = m x := fun x hx hx' => (h.shown_apply hx).trans (withFont_of_not_mem hx')
  have hinit : Stage.Contract (Entry a20 m) (.work (init16 dl))
      (At (fun x => x = 0x201C) m a20 0 { readRealMode m with boot_disk := dl })
      (GivesUp (fw.lost a20) m) none := by
    refine ⟨Stage.Spec.work ?_, .work⟩
    rintro s ⟨hstack, rfl, rfl⟩
    exact init16_at hstack dl
  have hdrive : Stage.Contract (At (fun x => x = 0x201C) m a20 0
      { readRealMode m with boot_disk := dl }) (id_drive fw.edd)
      (At (Collected (fw.lost a20)) m a20 0 (withDrive fw a20 m dl)) (GivesUp (fw.lost a20) m) _ :=
    ⟨id_drive_spec h.table h.slave, id_drive_decides _⟩
  have hvideo : Stage.Spec (At (Collected (fw.lost a20)) (withFont fw.font m) a20 0
      (withDrive fw a20 m dl)) (.work (svga_init fw.vbeInfo))
      (fun s => At (Collected (fw.lost a20)) (fw.shown m) a20 MEMMAP_SEG
        (collected fw a20 m dl) s ∧ s.di = 0) (GivesUp (fw.lost a20) m) :=
    svga_init_spec.mono (fun _ => id) (fun _ => id) fun _ => GivesUp.rebase hfonted
  have hfind : Stage.Spec _ (findVBEmode fw.video fuel)
      (fun s => At (Touched (fw.lost a20)) (fw.shown m) a20 MEMMAP_SEG (collected fw a20 m dl) s ∧
        s.word 0 screen_mode = fw.mode a20 m fuel) (GivesUp (fw.lost a20) m) :=
    (findVBEmode_spec fw.video hl hfuel).mono (fun _ => id)
      (fun s hs => ⟨hs.1, by unfold Firmware.mode; rw [hs.2]; rfl⟩) fun _ => GivesUp.rebase hshown
  have hset : Stage.Spec
      (fun s => At (Touched (fw.lost a20)) (fw.shown m) a20 MEMMAP_SEG (collected fw a20 m dl) s ∧
        s.word 0 screen_mode = fw.mode a20 m fuel) (setVBE fw.video)
      (fun s => ∃ v, At (Touched (fw.lost a20)) (fw.shown m) a20 MEMMAP_SEG v s ∧
        Stage2.setVBE fw.video (fw.mode a20 m fuel) (collected fw a20 m dl) = some v)
      (GivesUp (fw.lost a20) m) :=
    setVBE_spec.mono (fun _ => id) (fun _ => id) fun _ => GivesUp.rebase hshown
  have hmap : Stage.Spec
      (fun s => ∃ v, At (Touched (fw.lost a20)) (fw.shown m) a20 MEMMAP_SEG v s ∧
        Stage2.setVBE fw.video (fw.mode a20 m fuel) (collected fw a20 m dl) = some v)
      (map_memory labels.ret_e820 fw.memory) (Ready fw a20 a20 m dl (fw.mode a20 m fuel))
      (GivesUp (fw.lost a20) m) :=
    (map_memory_spec h.entries labels.ret_e820).mono (fun _ => id)
      (fun s ⟨v, size, hs, hset, hsaved⟩ => ⟨_, hs, ⟨v, size, hset, rfl⟩, hsaved⟩)
      fun _ => GivesUp.rebase hshown
  have hline : Stage.Spec (Ready fw a20 a20 m dl (fw.mode a20 m fuel))
      (activate_a20 chipset (cpu.flags.setWidth 16) labels.ret_a20)
      (Ready fw a20 true m dl (fw.mode a20 m fuel)) (GivesUp (fw.lost a20) m) := by
    refine (activate_a20_spec (K := fun v mem => Filled fw a20 m dl (fw.mode a20 m fuel) v ∧
      MapSaved (fw.lost a20) (fw.shown m) fw.memory v mem) chipset _ _ ?_).mono (fun _ => id)
      (fun _ => id) fun _ => GivesUp.rebase hshown
    rintro v mem mem' hmem ⟨hv, m', e, hm', he, hn, hmap⟩
    exact ⟨hv, m', e, hm', he, hn, fun x hlo hhi =>
      (hmem x (Or.inl (by omega))).trans (hmap x hlo hhi)⟩
  exact .skip hinit (.cons hdrive
    (.cons ⟨check_cpuid_spec cpu, check_cpuid_decides (fun _ hs => hs.stack) cpu⟩
    (.cons ⟨test_spec _ _, .test _ _⟩ (.cons ⟨test_spec _ _, .test _ _⟩
    (.skip ⟨get_font_spec rfl h.font_segment h.font_low h.font_apart h.font_kept, .work⟩
    (.skip ⟨hvideo, .work⟩ (.skip ⟨hfind, findVBEmode_decides fw.video hl hfuel⟩
    (.cons ⟨hset, setVBE_decides⟩
    (.cons ⟨hmap, map_memory_decides (fun _ ⟨_, hs, _⟩ => hs.stack) h.final labels.ret_e820⟩
    (.cons ⟨hline, activate_a20_decides (fun _ ⟨_, hs, _⟩ => hs.stack) chipset _ _⟩
    .nil))))))))))

theorem Ready.handsOver (h : fw.Fits a20) {dl : BitVec 8} {mode : BitVec 16} {s : Cpu16}
    (hs : Ready fw a20 true m dl mode s) : HandsOver fw a20 m dl mode s := by
  obtain ⟨v, hat, hfilled, m', e, -, he, hsize, hmap⟩ := hs
  refine ⟨hat.a20, ?_, ?_, ?_, m', e, he, ?_, hmap⟩
  · intro x hx hfont
    rw [hat.frame x hx, h.shown_apply hx, withFont_of_not_mem hfont]
  · intro i hi
    have hx : ¬ Touched (fw.lost a20) (0x1000 + i) := by
      have hne : 0x1000 + i ≠ fw.lost a20 := h.lost_ne (by omega)
      unfold Touched Collected
      omega
    rw [hat.frame _ hx, h.shown_apply hx]
    unfold withFont
    rw [if_pos (by omega), Nat.add_sub_cancel_left]
  · rw [hat.data]
    exact hfilled
  · rw [hat.data]
    exact hsize

/-- The strings of the messages, in a part of the image that the stages leave alone. -/
structure Messages (labels : Labels) (m : Mem) : Prop where
  string : ∀ e, StringAt false m 0 (labels.message e) (ascii e.text)
  lo : ∀ e, 0x2046 ≤ (labels.message e).toNat
  hi : ∀ e, (labels.message e).toNat + (ascii e.text).length < 0xA000

theorem Messages.kept (h : fw.Fits a20) {labels : Labels} (ht : Messages labels m)
    {e : ErrMsg × Cpu16} (he : GivesUp (fw.lost a20) m e) :
    ∃ fuel, boot_fail16 labels fuel e = some (ascii e.1.text) := by
  unfold boot_fail16
  rw [printLoop_iff, he.1]
  refine (ht.string e.1).shift fun i hi => ?_
  have hlo := ht.lo e.1
  have hhi := ht.hi e.1
  have hplace : (labels.message e.1 + BitVec.ofNat 16 i).toNat = (labels.message e.1).toNat + i :=
    toNat_add_ofNat (by omega)
  have hne : (labels.message e.1).toNat + i ≠ fw.lost a20 := h.lost_ne (by omega)
  unfold load8
  rw [linear_zero, linear_zero, hplace, he.2 _ ?_ (by omega)]
  unfold Touched Collected
  omega

end stub

/-! ### From the disk -/

section disk

variable {fw : Firmware} {m : Mem}

/-- The first sectors where the boot sector loads them. -/
def diskImage (disk : Stage1.Disk) : Mem := fun x =>
  disk ((x - 0x2000) / 2048) ((x - 0x2000) % 2048)

/-- From `init16` to the end of what the boot sector loads. -/
def InImage (x : ℕ) : Prop := 0x2046 ≤ x ∧ x < 0xA000

theorem entered_diskImage {bios : Stage1.Bios} {disk : Stage1.Disk}
    (hdisk : Stage1.ReadsDisk disk bios) (hread : (bios.read Stage1.stage2Packet).carry = false)
    (a20 : Bool) (dx : BitVec 16) {x : ℕ} (hx : InImage x) :
    Stage1.entered a20 bios dx m x = diskImage disk x := by
  obtain ⟨hlo, hhi⟩ := hx
  have hplace : x = 0x2000 + (x - 0x2000) := by omega
  rw [hplace, Stage1.entered_image hdisk hread a20 dx (by omega)]
  unfold diskImage
  rw [Nat.add_sub_cancel_left]

theorem Messages.congr {labels : Labels} (h : Messages labels m) {m' : Mem}
    (hm : ∀ x, InImage x → m' x = m x) : Messages labels m' := by
  refine ⟨fun e => (h.string e).shift fun i hi => ?_, h.lo, h.hi⟩
  have hlo := h.lo e
  have hhi := h.hi e
  have hplace : (labels.message e + BitVec.ofNat 16 i).toNat = (labels.message e).toNat + i :=
    toNat_add_ofNat (by omega)
  unfold load8
  rw [linear_zero, hplace]
  exact (hm _ ⟨by omega, by omega⟩).symm

theorem HandsOver.image {a20 : Bool} (h : fw.Fits a20) {dl : BitVec 8} {mode : BitVec 16}
    {t : Cpu16} (ht : HandsOver fw a20 m dl mode t) {x : ℕ} (hx : InImage x) : t.mem x = m x := by
  obtain ⟨hlo, hhi⟩ := hx
  have hne : x ≠ fw.lost a20 := h.lost_ne (by omega)
  refine ht.frame x ?_ (by omega)
  unfold Touched Collected
  omega

end disk

/-! ### A machine -/

/-- A mode of 800 times 600. -/
def svgaMode : ModeInfo where
  buffer i :=
    if i = 0x00 then 0x01 else if i = 0x12 then 0x20 else if i = 0x13 then 0x03
    else if i = 0x14 then 0x58 else if i = 0x15 then 0x02 else if i = 0x19 then 32 else 0

/-- The table of the drive is at `F000:0000`, the font at `C000:2000`, and the list with one mode
behind the pointer to it. -/
def svgaFirmware : Firmware where
  edd :=
    { carry := false
      ah := 0x00
      buffer := fun i => if i = 0 then 0x1E else if i = 0x1D then 0xF0 else 0 }
  font_es := 0xC000
  font_bp := 0x2000
  vbeInfo := [0x56, 0x45, 0x53, 0x41, 0x00, 0x03, 0, 0, 0, 0, 0, 0, 0, 0, 0x12, 0x00, 0x00, 0x0A,
    0x18, 0x01, 0xFF, 0xFF]
  video :=
    { query := fun cx => if cx = 0x4118 then some svgaMode else none
      setMode := fun cx => cx = 0x4118 }
  memory := [oneResponse 0x700000]

def longModeProcessor : Processor where
  flags := 0x00000002
  popfd := id
  cpuid_80000000_eax := 0x80000008
  cpuid_80000001_edx := LM_BM

def fastGate : Chipset where
  port92 := 0x00
  gate b := b &&& 2 != 0

def textLabels : Labels where
  message
    | .SVGA_FAIL => 0x3000
    | .E820_FAIL => 0x3040
    | .A20_FAIL => 0x3080
    | .NO_CPUID => 0x30C0
    | .NOT_64BIT => 0x3100
    | .ID_DRIVE_FAIL => 0x3140
  ret_e820 := 0x2100
  ret_a20 := 0x2200

/-- The texts of the messages, 64 bytes apart. -/
def textImage : Mem := fun x =>
  if x < 0x3000 then 0
  else
    let texts := [ErrMsg.SVGA_FAIL, .E820_FAIL, .A20_FAIL, .NO_CPUID, .NOT_64BIT, .ID_DRIVE_FAIL]
    match texts[(x - 0x3000) / 64]? with
    | some e => (ascii e.text).getD ((x - 0x3000) % 64) 0
    | none => 0

def textDisk : Stage1.Disk := fun sector k => textImage (0x2000 + 2048 * sector + k)

/-- A BIOS that reads this disk. -/
def textBios : Stage1.Bios where
  edd := { carry := false, bx := 0xAA55, cx := 0x0001, ah := 0x30 }
  read p :=
    { carry := false
      bytes := fun k => textDisk (p.da_LBA_number + k / 2048) (k % 2048) }

/-- Behind the boot sector. -/
def textStart : Cpu16 where
  ds := 0
  es := 0
  fs := 0
  si := 0
  di := 0
  stack := bootStack
  a20 := false
  mem := Stage1.entered false textBios 0x0080 Stage1.sampleSector

theorem textStart_mem :
    textStart.mem = Stage1.entered false textBios 0x0080 Stage1.sampleSector := rfl

theorem textBios_reads : Stage1.ReadsDisk textDisk textBios := fun _ _ _ _ => rfl

theorem textLabels_disk : Messages textLabels (diskImage textDisk) where
  string e := by cases e <;> decide
  lo e := by cases e <;> decide
  hi e := by cases e <;> decide

theorem textLabels_start : Messages textLabels textStart.mem :=
  textLabels_disk.congr fun _ hx => entered_diskImage textBios_reads rfl false 0x0080 hx

theorem svgaFirmware_lost : svgaFirmware.lost false = 0xF201D := rfl

theorem svgaFirmware_fits : svgaFirmware.Fits false where
  table := by
    have hfar : ∀ i < 5, 0x2022 ≤ linear false 0xF000 (0 + BitVec.ofNat 16 i) := by decide
    exact fun i hi hmem => absurd hmem.2 (Nat.not_lt.mpr (hfar i hi))
  slave := Or.inr (by unfold Used; rw [svgaFirmware_lost]; decide)
  font_segment := by decide
  font_low := by decide
  font_apart := Or.inr (by decide)
  font_kept := by
    intro i hi
    have hfont : svgaFirmware.font = 0xC2000 := rfl
    unfold Collected
    rw [svgaFirmware_lost, hfont]
    omega
  info := by decide
  entries := by decide
  final := ⟨_, List.mem_singleton_self _, rfl⟩

theorem svgaModes : ModesAt (svgaFirmware.lost false) false (svgaFirmware.shown textStart.mem)
    [0x0118] where
  list _ :=
    { list :=
        { words := by decide
          modes := by decide
          terminator := by decide }
      ne := by decide
      apart := by
        unfold Scratch Collected
        decide }
  fresh := by
    intro x hlo hhi
    unfold Firmware.shown
    have hplace : x = 0x2000 + (x - 0x2000) := by omega
    have hread : textStart.mem x = textDisk ((x - 0x2000) / 2048) ((x - 0x2000) % 2048) := by
      rw [hplace, textStart_mem, Nat.add_sub_cancel_left,
        Stage1.entered_image textBios_reads rfl false 0x0080 (by omega)]
    rw [writeBytes_of_not_mem (Or.inl (by omega)), withFont_of_not_mem (by omega), hread]
    unfold textDisk textImage
    rw [if_pos (by omega)]
  kept := by
    rintro x hx rfl
    rw [svgaFirmware_lost] at hx
    omega

/-! ### The results -/

section results

variable {fw : Firmware} {s : Cpu16} {l : List (BitVec 16)} {fuel : ℕ}

/-- **The boot sector's jump ends in front of `main`**: on a machine that has all that is asked for
the stages come to their end, and everything is in its place. -/
theorem stub_hands_over (hstack : s.stack = bootStack) (h : fw.Fits s.a20)
    (hl : ModesAt (fw.lost s.a20) s.a20 (fw.shown s.mem) l) (hfuel : l.length ≤ fuel + 1)
    (cpu : Processor) (chipset : Chipset) (labels : Labels) (dl : BitVec 8)
    (hmet : ∀ q ∈ requirements fw cpu chipset (fw.mode s.a20 s.mem fuel), q.1 = true) :
    ∃ t, Stage.run (stages fw cpu chipset labels fuel dl) s = some (.ok t) ∧
      HandsOver fw s.a20 s.mem dl (fw.mode s.a20 s.mem fuel) t := by
  have hrun := stub_contract h hl hfuel cpu chipset labels dl
  rw [Stage.firstUnmet_eq_none hmet] at hrun
  obtain ⟨t, ht, hready⟩ := hrun.reaches ⟨hstack, rfl, rfl⟩
  exact ⟨t, ht, hready.handsOver h⟩

theorem stub_hands_over_svga : ∃ t, Stage.run (stages svgaFirmware longModeProcessor fastGate
      textLabels 0 0x80) textStart = some (.ok t) ∧
    HandsOver svgaFirmware false textStart.mem 0x80 (svgaFirmware.mode false textStart.mem 0) t :=
  stub_hands_over rfl svgaFirmware_fits svgaModes (by decide) longModeProcessor fastGate
    textLabels 0x80 (by decide +kernel)

/-- **The boot from a disk.**  The boot sector enters the second stage, and that ends with `main` to
be called and its image as on the disk, or with the message of what the machine does not have. -/
theorem boot_ends {m : Mem} (h : Stage1.PacketLoaded m) {bios : Stage1.Bios} {disk : Stage1.Disk}
    (hedd : bios.edd.supported = true) (hdisk : Stage1.ReadsDisk disk bios)
    (hread : (bios.read Stage1.stage2Packet).carry = false) (sector : Stage1.Labels)
    (dx : BitVec 16) (hmem : s.mem = Stage1.entered s.a20 bios dx m) (hstack : s.stack = bootStack)
    (hfits : fw.Fits s.a20) (hl : ModesAt (fw.lost s.a20) s.a20 (fw.shown s.mem) l)
    (hfuel : l.length ≤ fuel + 1) (cpu : Processor) (chipset : Chipset) {labels : Labels}
    (htext : Messages labels (diskImage disk)) :
    Stage1.stage1 s.a20 sector bios 0 dx m =
        some (.stage2 0x0000 Stage1.STAGE2_ADDR dx s.mem) ∧
      ∃ r, Stage.run (stages fw cpu chipset labels fuel (dx.setWidth 8)) s = some r ∧
        Stage.errorOf r =
          Stage.firstUnmet (requirements fw cpu chipset (fw.mode s.a20 s.mem fuel)) ∧
        (∀ t, r = .ok t →
          HandsOver fw s.a20 s.mem (dx.setWidth 8) (fw.mode s.a20 s.mem fuel) t ∧
            ∀ x, InImage x → t.mem x = diskImage disk x) ∧
        ∀ e t, r = .error (e, t) → ∃ n, boot_fail16 labels n (e, t) = some (ascii e.text) := by
  have himage : ∀ x, InImage x → s.mem x = diskImage disk x := by
    intro x hx
    rw [hmem]
    exact entered_diskImage hdisk hread s.a20 dx hx
  have hentry : Entry s.a20 s.mem s := ⟨hstack, rfl, rfl⟩
  have hrun := stub_contract hfits hl hfuel cpu chipset labels (dx.setWidth 8)
  obtain ⟨r, hr, herror⟩ := hrun.decides s hentry
  refine ⟨?_, r, hr, herror, ?_, ?_⟩
  · rw [hmem]
    exact Stage1.stage1_enters h hedd hread s.a20 sector 0 dx
  · rintro t rfl
    have hover := (hrun.spec.ok s t hentry hr).handsOver hfits
    exact ⟨hover, fun x hx => (hover.image hfits hx).trans (himage x hx)⟩
  · rintro e t rfl
    exact (htext.congr himage).kept hfits (hrun.spec.error s (e, t) hentry hr)

theorem boot_ends_svga :
    Stage1.stage1 textStart.a20 Stage1.sampleLabels textBios 0 0x0080 Stage1.sampleSector =
        some (.stage2 0x0000 Stage1.STAGE2_ADDR 0x0080 textStart.mem) ∧
      ∃ r, Stage.run (stages svgaFirmware longModeProcessor fastGate textLabels 0
          ((0x0080 : BitVec 16).setWidth 8)) textStart = some r ∧
        Stage.errorOf r = Stage.firstUnmet (requirements svgaFirmware longModeProcessor fastGate
          (svgaFirmware.mode textStart.a20 textStart.mem 0)) ∧
        (∀ t, r = .ok t → HandsOver svgaFirmware textStart.a20 textStart.mem
            ((0x0080 : BitVec 16).setWidth 8) (svgaFirmware.mode textStart.a20 textStart.mem 0) t ∧
          ∀ x, InImage x → t.mem x = diskImage textDisk x) ∧
        ∀ e t, r = .error (e, t) → ∃ n, boot_fail16 textLabels n (e, t) = some (ascii e.text) :=
  boot_ends Stage1.sampleSector_packet rfl textBios_reads rfl Stage1.sampleLabels 0x0080
    textStart_mem rfl svgaFirmware_fits svgaModes (by decide) longModeProcessor fastGate
    textLabels_disk

end results

end Ziemniak.Stage2.Stub
