import Ziemniak.BareMetal.RealModeCode
import Ziemniak.BareMetal.Descriptor

/-! # The boot sector

`stage1.asm`: it moves itself out of the way, checks for the disk extensions of the BIOS, loads the
first sectors of the disk as the second stage and jumps there.

The code is assembled for the address it moves to.  Until it has set `ds` to zero, its labels are
looked up in the segment it was loaded to, which is not where they lie: `stage1_messages` says
what is printed there. -/

namespace Ziemniak.Stage1

open BareMetal BareMetal.RealMode

/-! ### The source -/

def ORG : ℕ := 0x0800
def STACK_SEG : BitVec 16 := 0x7000
def STAGE1_SRC_SEG : BitVec 16 := 0x07C0
def STAGE1_DST_SEG : BitVec 16 := 0x0080
def CD_SECT_SIZE : ℕ := 0x0800
def STAGE2_SEC_CNT : ℕ := 0x0010
def STAGE2_ADDR : BitVec 16 := 0x2004
def STAGE2_SEG : ℕ := 0x0200

def disk_packet : BitVec 16 := 0x0808

/-- The directives of `disk_packet`. -/
def packetDirectives : List (ℕ × ℕ) :=
  [(1, 0x10), (1, 0x00), (2, STAGE2_SEC_CNT), (2, 0), (2, STAGE2_SEG), (8, 0)]

/-- The labels of the messages, behind the code. -/
structure Labels where
  ERR_MSG_CD_READ : BitVec 16
  ERR_MSG_EDD_NSUP : BitVec 16

/-- What function 41 of `int 0x13` returns. -/
structure EddCheck where
  carry : Bool
  bx : BitVec 16
  cx : BitVec 16
  ah : BitVec 8

/-- The tests up to `jmp edd_supp`. -/
def EddCheck.supported (r : EddCheck) : Bool :=
  !r.carry && r.bx == 0xAA55 && r.cx &&& 0x03 != 0 && r.ah == 0x30

/-- A disk address packet. -/
structure Packet where
  da_BlockCount : BitVec 16
  da_BufferOff : BitVec 16
  da_BufferSeg : BitVec 16
  da_LBA_number : ℕ

def readPacket (a20 : Bool) (m : Mem) (ds si : BitVec 16) : Packet where
  da_BlockCount := load16 a20 m ds (si + 2)
  da_BufferOff := load16 a20 m ds (si + 4)
  da_BufferSeg := load16 a20 m ds (si + 6)
  da_LBA_number := (load16 a20 m ds (si + 8)).toNat +
    2 ^ 16 * (load16 a20 m ds (si + 10)).toNat + 2 ^ 32 * (load16 a20 m ds (si + 12)).toNat +
    2 ^ 48 * (load16 a20 m ds (si + 14)).toNat

/-- The bytes that a packet names. -/
def Packet.buffer (p : Packet) : ℕ := p.da_BufferSeg.toNat * 16 + p.da_BufferOff.toNat
def Packet.size (p : Packet) : ℕ := CD_SECT_SIZE * p.da_BlockCount.toNat

/-- What function 42 returns: the carry flag, and the bytes that the buffer holds then. -/
structure ReadReturn where
  carry : Bool
  bytes : ℕ → BitVec 8

structure Bios where
  edd : EddCheck
  read : Packet → ReadReturn

def transfer (p : Packet) (r : ReadReturn) (m : Mem) : Mem := fun x =>
  if p.buffer ≤ x ∧ x < p.buffer + p.size then r.bytes (x - p.buffer) else m x

/-- The second stage is entered, or a text was printed before the endless loop. -/
inductive Outcome
  | stage2 (cs ip dx : BitVec 16) (mem : Mem)
  | printed (text : List (BitVec 8))

/-- `read_fail` -/
def readFail (a20 : Bool) (fuel : ℕ) (ax ds : BitVec 16) (m : Mem) : Option Outcome :=
  (printLoop a20 m ds fuel ax).map .printed

/-- From `start` to the far jump. -/
def relocate (a20 : Bool) (dx : BitVec 16) (m : Mem) : Stack × Mem :=
  let stack : Stack := { ss := STACK_SEG, sp := 0xFFF0 }
  let m := repMovsb a20 STAGE1_SRC_SEG STAGE1_DST_SEG CD_SECT_SIZE 0 0 m
  stack.push a20 dx m

/-- `edd_supp` -/
def loadStage2 (a20 : Bool) (labels : Labels) (bios : Bios) (fuel : ℕ) (stack : Stack) (m : Mem) :
    Option Outcome :=
  let ds : BitVec 16 := 0
  let p := readPacket a20 m ds disk_packet
  let r := bios.read p
  let m := transfer p r m
  if r.carry then readFail a20 fuel labels.ERR_MSG_CD_READ ds m
  else some (.stage2 0x0000 STAGE2_ADDR (stack.pop a20 m).1 m)

/-- The whole of `stage1.asm`. -/
def stage1 (a20 : Bool) (labels : Labels) (bios : Bios) (fuel : ℕ) (dx : BitVec 16) (m : Mem) :
    Option Outcome :=
  let (stack, m) := relocate a20 dx m
  if bios.edd.supported then loadStage2 a20 labels bios fuel stack m
  else readFail a20 fuel labels.ERR_MSG_EDD_NSUP STAGE1_SRC_SEG m

theorem stage1_eq (a20 : Bool) (labels : Labels) (bios : Bios) (fuel : ℕ) (dx : BitVec 16)
    (m : Mem) : stage1 a20 labels bios fuel dx m =
      if bios.edd.supported then
        loadStage2 a20 labels bios fuel { ss := STACK_SEG, sp := 0xFFEE } (relocate a20 dx m).2
      else readFail a20 fuel labels.ERR_MSG_EDD_NSUP STAGE1_SRC_SEG (relocate a20 dx m).2 := rfl

/-! ### Moving away -/

/-- Where the boot sector is loaded. -/
def loadAddr : ℕ := 0x7C00

/-- The slot of the drive number on the stack. -/
def driveSlot : ℕ := 0x7FFEE

section relocate

variable (a20 : Bool) (dx : BitVec 16) (m : Mem)

theorem relocate_mem (x : ℕ) : (relocate a20 dx m).2 x =
    writeLE 2 (fun x => if ORG ≤ x ∧ x < ORG + CD_SECT_SIZE then m (loadAddr + (x - ORG)) else m x)
      driveSlot dx.toNat x := by
  have hcopy : repMovsb a20 STAGE1_SRC_SEG STAGE1_DST_SEG CD_SECT_SIZE 0 0 m =
      fun x => if ORG ≤ x ∧ x < ORG + CD_SECT_SIZE then m (loadAddr + (x - ORG)) else m x := by
    funext x
    have hsrc : loadAddr = STAGE1_SRC_SEG.toNat * 16 + (0 : BitVec 16).toNat := rfl
    have hdst : ORG = STAGE1_DST_SEG.toNat * 16 + (0 : BitVec 16).toNat := rfl
    exact repMovsb_apply hsrc hdst (by decide) (by decide) (by decide) (by decide) (by decide) x
  have hpush : (relocate a20 dx m).2 = store16 a20
      (repMovsb a20 STAGE1_SRC_SEG STAGE1_DST_SEG CD_SECT_SIZE 0 0 m) STACK_SEG 0xFFEE dx := rfl
  rw [hpush, hcopy, store16_low (by decide) (by decide)]
  rfl

theorem relocate_other {x : ℕ} (hx : x < ORG ∨ ORG + CD_SECT_SIZE ≤ x)
    (hx' : x < driveSlot ∨ driveSlot + 2 ≤ x) : (relocate a20 dx m).2 x = m x := by
  rw [relocate_mem, writeLE_of_not_mem (by omega), if_neg (by omega)]

theorem relocate_code {k : ℕ} (hk : k < CD_SECT_SIZE) :
    (relocate a20 dx m).2 (ORG + k) = m (loadAddr + k) := by
  have hslot : driveSlot = 0x7FFEE := rfl
  have horg : ORG = 0x0800 := rfl
  have hsize : CD_SECT_SIZE = 0x0800 := rfl
  rw [relocate_mem, writeLE_of_not_mem (by omega), if_pos (by omega), Nat.add_sub_cancel_left]

end relocate

/-! ### The packet -/

/-- The packet of the assembled boot sector. -/
def PacketLoaded (m : Mem) : Prop :=
  AgreeOn m (emit (fun _ => 0) (loadAddr + 8) packetDirectives) (loadAddr + 8) 16

theorem packet_word {m : Mem} (h : PacketLoaded m) (a20 : Bool) (dx : BitVec 16) {i n v o k : ℕ}
    (hi : packetDirectives.getD i (0, 0) = (n, v)) (ho : o + 2 ≤ n)
    (hk : k = emitOffset packetDirectives i + o) (hin : k + 2 ≤ 16) :
    (load16 a20 (relocate a20 dx m).2 0 (disk_packet + BitVec.ofNat 16 k)).toNat =
      v / 256 ^ o % 256 ^ 2 := by
  have hbase : disk_packet.toNat = 0x0808 := rfl
  have hzero : (0 : BitVec 16).toNat = 0 := rfl
  have hoff : (disk_packet + BitVec.ofNat 16 k).toNat = 0x0808 + k := by
    rw [toNat_add_ofNat (by omega), hbase]
  have hcode : ∀ x < 16, (relocate a20 dx m).2 (0x0808 + x) = m (loadAddr + 8 + x) := by
    intro x hx
    have horg : ORG = 0x0800 := rfl
    have hplace : 0x0808 + x = ORG + (8 + x) := by omega
    rw [hplace, relocate_code a20 dx m (show 8 + x < 0x0800 by omega), Nat.add_assoc]
  have hread : readLE 2 (relocate a20 dx m).2 (0x0808 + k) = readLE 2 m (loadAddr + 8 + k) := by
    apply readLE_shift
    intro x hx
    rw [Nat.add_assoc, Nat.add_assoc (loadAddr + 8)]
    exact hcode (k + x) (by omega)
  rw [load16_low (by omega) (by omega), hoff, hzero, Nat.zero_mul, Nat.zero_add, hread,
    h.readLE hin, hk, ← Nat.add_assoc]
  exact readLE_emit hi ho _ _

/-- Sixteen sectors from the start of the disk, to the address of the second stage. -/
def stage2Packet : Packet where
  da_BlockCount := 16
  da_BufferOff := 0
  da_BufferSeg := 0x200
  da_LBA_number := 0

theorem readPacket_relocated {m : Mem} (h : PacketLoaded m) (a20 : Bool) (dx : BitVec 16) :
    readPacket a20 (relocate a20 dx m).2 0 disk_packet = stage2Packet := by
  have hcount := packet_word h a20 dx (i := 2) (o := 0) (k := 2) rfl (by decide) rfl (by decide)
  have hoff := packet_word h a20 dx (i := 3) (o := 0) (k := 4) rfl (by decide) rfl (by decide)
  have hseg := packet_word h a20 dx (i := 4) (o := 0) (k := 6) rfl (by decide) rfl (by decide)
  have hlba : ∀ o, o + 2 ≤ 8 → (load16 a20 (relocate a20 dx m).2 0
      (disk_packet + BitVec.ofNat 16 (8 + o))).toNat = 0 := by
    intro o ho
    rw [packet_word h a20 dx (i := 5) (o := o) (k := 8 + o) rfl ho rfl (by omega), Nat.zero_div,
      Nat.zero_mod]
  unfold readPacket stage2Packet
  rw [Packet.mk.injEq]
  refine ⟨BitVec.eq_of_toNat_eq hcount, BitVec.eq_of_toNat_eq hoff, BitVec.eq_of_toNat_eq hseg, ?_⟩
  have h0 := hlba 0 (by decide)
  have h2 := hlba 2 (by decide)
  have h4 := hlba 4 (by decide)
  have h6 := hlba 6 (by decide)
  have hsum : ∀ {a b c d : ℕ}, a = 0 → b = 0 → c = 0 → d = 0 →
      a + 2 ^ 16 * b + 2 ^ 32 * c + 2 ^ 48 * d = 0 := by
    rintro _ _ _ _ rfl rfl rfl rfl
    rfl
  exact hsum h0 h2 h4 h6

/-! ### The second stage -/

/-- The bytes of every sector. -/
abbrev Disk := ℕ → ℕ → BitVec 8

/-- What the BIOS has read is on the disk. -/
def ReadsDisk (disk : Disk) (bios : Bios) : Prop :=
  ∀ p, (bios.read p).carry = false → ∀ k < p.size,
    (bios.read p).bytes k = disk (p.da_LBA_number + k / CD_SECT_SIZE) (k % CD_SECT_SIZE)

theorem transfer_stage2 (r : ReadReturn) (m : Mem) (x : ℕ) :
    transfer stage2Packet r m x =
      if 0x2000 ≤ x ∧ x < 0xA000 then r.bytes (x - 0x2000) else m x := rfl

/-- Memory at the jump to the second stage. -/
def entered (a20 : Bool) (bios : Bios) (dx : BitVec 16) (m : Mem) : Mem :=
  transfer stage2Packet (bios.read stage2Packet) (relocate a20 dx m).2

section loads

variable {m : Mem} {bios : Bios} {disk : Disk}

theorem pop_entered (a20 : Bool) (bios : Bios) (dx : BitVec 16) (m : Mem) :
    (Stack.pop a20 { ss := STACK_SEG, sp := 0xFFEE } (entered a20 bios dx m)).1 = dx := by
  have hdx := dx.isLt
  have hslot : driveSlot = 0x7FFEE := rfl
  have hplace : STACK_SEG.toNat * 16 + (0xFFEE : BitVec 16).toNat = driveSlot := rfl
  have hsame : readLE 2 (entered a20 bios dx m) driveSlot =
      readLE 2 (relocate a20 dx m).2 driveSlot := by
    apply readLE_congr
    intro x hx _
    unfold entered
    rw [transfer_stage2, if_neg (by omega)]
  have hpushed : readLE 2 (relocate a20 dx m).2 driveSlot = dx.toNat % 256 ^ 2 := by
    rw [funext (relocate_mem a20 dx m)]
    exact readLE_writeLE ..
  apply BitVec.eq_of_toNat_eq
  unfold Stack.pop
  rw [load16_low (by decide) (by decide), hplace, hsame, hpushed, Nat.mod_eq_of_lt (by omega)]

theorem stage1_enters (h : PacketLoaded m) (hedd : bios.edd.supported = true)
    (hread : (bios.read stage2Packet).carry = false) (a20 : Bool) (labels : Labels) (fuel : ℕ)
    (dx : BitVec 16) : stage1 a20 labels bios fuel dx m =
      some (.stage2 0x0000 STAGE2_ADDR dx (entered a20 bios dx m)) := by
  have hpop := pop_entered a20 bios dx m
  unfold entered at hpop ⊢
  rw [stage1_eq, if_pos hedd]
  unfold loadStage2
  simp only [readPacket_relocated h a20 dx, hread, hpop]
  rfl

theorem entered_image (hdisk : ReadsDisk disk bios) (hread : (bios.read stage2Packet).carry = false)
    (a20 : Bool) (dx : BitVec 16) {k : ℕ} (hk : k < 0x8000) :
    entered a20 bios dx m (0x2000 + k) = disk (k / 2048) (k % 2048) := by
  have hsize : stage2Packet.size = 0x8000 := rfl
  have hlba : stage2Packet.da_LBA_number = 0 := rfl
  unfold entered
  rw [transfer_stage2, if_pos (by omega), Nat.add_sub_cancel_left,
    hdisk _ hread k (by omega), hlba, Nat.zero_add]
  rfl

theorem entered_code (a20 : Bool) (dx : BitVec 16) {k : ℕ} (hk : k < CD_SECT_SIZE) :
    entered a20 bios dx m (ORG + k) = m (loadAddr + k) := by
  have horg : ORG = 0x0800 := rfl
  have hsize : CD_SECT_SIZE = 0x0800 := rfl
  unfold entered
  rw [transfer_stage2, if_neg (by omega), relocate_code a20 dx m hk]

theorem entered_other (a20 : Bool) (dx : BitVec 16) {x : ℕ} (hx : x < 0x800 ∨ 0x1000 ≤ x)
    (hx' : x < 0x2000 ∨ 0xA000 ≤ x) (hx'' : x < driveSlot ∨ driveSlot + 2 ≤ x) :
    entered a20 bios dx m x = m x := by
  unfold entered
  rw [transfer_stage2, if_neg (by omega), relocate_other a20 dx m hx hx'']

/-- **The second stage is loaded.**  A BIOS with the disk extensions that reads the sectors leaves
the first 32 KiB of the disk at `0x2000`; they are entered behind their first word with the drive
number in `dl`, the boot sector lies at the place it moved to, and nothing else changes but a word
of its stack. -/
theorem stage1_loads {m : Mem} (h : PacketLoaded m) {bios : Bios} {disk : Disk}
    (hedd : bios.edd.supported = true) (hdisk : ReadsDisk disk bios)
    (hread : (bios.read stage2Packet).carry = false) (a20 : Bool) (labels : Labels) (fuel : ℕ)
    (dx : BitVec 16) : ∃ mem, stage1 a20 labels bios fuel dx m =
        some (.stage2 0x0000 STAGE2_ADDR dx mem) ∧
      (∀ k < 0x8000, mem (0x2000 + k) = disk (k / 2048) (k % 2048)) ∧
      (∀ k < CD_SECT_SIZE, mem (ORG + k) = m (loadAddr + k)) ∧
      (∀ x, (x < 0x800 ∨ 0x1000 ≤ x) → (x < 0x2000 ∨ 0xA000 ≤ x) →
        (x < driveSlot ∨ driveSlot + 2 ≤ x) → mem x = m x) := by
  refine ⟨entered a20 bios dx m, stage1_enters h hedd hread a20 labels fuel dx, ?_, ?_, ?_⟩
  · intro k hk
    exact entered_image hdisk hread a20 dx hk
  · intro k hk
    exact entered_code a20 dx hk
  · intro x hx hx' hx''
    exact entered_other a20 dx hx hx' hx''

end loads

/-- A BIOS that reads a disk of numbered sectors. -/
def sampleBios : Bios where
  edd := { carry := false, bx := 0xAA55, cx := 0x0001, ah := 0x30 }
  read p :=
    { carry := false
      bytes := fun k => BitVec.ofNat 8 (p.da_LBA_number + k / CD_SECT_SIZE) }

/-- A boot sector with nothing but its packet and the text `E`. -/
def sampleSector : Mem :=
  write8 (emit (fun _ => 0) (loadAddr + 8) packetDirectives) (loadAddr + 0x90) 0x45

def sampleLabels : Labels where
  ERR_MSG_CD_READ := 0x0890
  ERR_MSG_EDD_NSUP := 0x0890

theorem sampleSector_packet : PacketLoaded sampleSector := by
  intro x _ hx
  exact if_neg (by omega)

theorem stage1_loads_numbered : ∃ mem, stage1 false sampleLabels sampleBios 0 0x00E0 sampleSector =
        some (.stage2 0x0000 STAGE2_ADDR 0x00E0 mem) ∧
      (∀ k < 0x8000, mem (0x2000 + k) = BitVec.ofNat 8 (k / 2048)) ∧
      (∀ k < CD_SECT_SIZE, mem (ORG + k) = sampleSector (loadAddr + k)) ∧
      (∀ x, (x < 0x800 ∨ 0x1000 ≤ x) → (x < 0x2000 ∨ 0xA000 ≤ x) →
        (x < driveSlot ∨ driveSlot + 2 ≤ x) → mem x = sampleSector x) := by
  have hdisk : ReadsDisk (fun sector _ => BitVec.ofNat 8 sector) sampleBios := fun _ _ _ _ => rfl
  exact stage1_loads sampleSector_packet rfl hdisk rfl false sampleLabels 0 0x00E0

/-! ### The messages -/

theorem readFail_iff {a20 : Bool} {ax ds : BitVec 16} {m : Mem} {text : List (BitVec 8)} :
    (∃ fuel, readFail a20 fuel ax ds m = some (.printed text)) ↔ StringAt a20 m ds ax text := by
  rw [← printLoop_iff]
  unfold readFail
  simp only [Option.map_eq_some_iff, Outcome.printed.injEq, exists_eq_right]

theorem stringAt_source {a20 : Bool} {dx off : BitVec 16} {m : Mem} {text : List (BitVec 8)} :
    StringAt a20 (relocate a20 dx m).2 STAGE1_SRC_SEG off text ↔
      StringAt a20 m STAGE1_SRC_SEG off text := by
  have hsame : ∀ i, load8 a20 (relocate a20 dx m).2 STAGE1_SRC_SEG i =
      load8 a20 m STAGE1_SRC_SEG i := by
    intro i
    have hi := i.isLt
    have hseg : STAGE1_SRC_SEG.toNat = 0x07C0 := rfl
    have horg : ORG = 0x0800 := rfl
    have hsize : CD_SECT_SIZE = 0x0800 := rfl
    have hslot : driveSlot = 0x7FFEE := rfl
    unfold load8
    rw [linear_low (by omega), relocate_other a20 dx m (by omega) (by omega)]
  exact ⟨StringAt.shift fun i _ => hsame _, StringAt.shift fun i _ => (hsame _).symm⟩

theorem stringAt_moved {a20 : Bool} {dx label : BitVec 16} {m : Mem} {text : List (BitVec 8)}
    (r : ReadReturn) (hlo : ORG ≤ label.toNat)
    (hhi : label.toNat + text.length < ORG + CD_SECT_SIZE) :
    StringAt a20 (transfer stage2Packet r (relocate a20 dx m).2) 0 label text ↔
      StringAt a20 m STAGE1_SRC_SEG (label - BitVec.ofNat 16 ORG) text := by
  have hseg : STAGE1_SRC_SEG.toNat = 0x07C0 := rfl
  have horg : ORG = 0x0800 := rfl
  have hsize : CD_SECT_SIZE = 0x0800 := rfl
  have hload : loadAddr = 0x7C00 := rfl
  have hzero : (0 : BitVec 16).toNat = 0 := rfl
  have hsub : (label - BitVec.ofNat 16 ORG).toNat = label.toNat - ORG := by
    rw [BitVec.toNat_sub_of_le]
    · rfl
    · rw [BitVec.le_def]
      exact hlo
  have hsame : ∀ i ≤ text.length, load8 a20 (transfer stage2Packet r (relocate a20 dx m).2) 0
      (label + BitVec.ofNat 16 i) =
        load8 a20 m STAGE1_SRC_SEG (label - BitVec.ofNat 16 ORG + BitVec.ofNat 16 i) := by
    intro i hi
    have h1 : (label + BitVec.ofNat 16 i).toNat = label.toNat + i := toNat_add_ofNat (by omega)
    have h2 : (label - BitVec.ofNat 16 ORG + BitVec.ofNat 16 i).toNat = label.toNat - ORG + i := by
      rw [toNat_add_ofNat (by omega), hsub]
    have hplace : label.toNat + i = ORG + (label.toNat - ORG + i) := by omega
    unfold load8
    rw [linear_low (by omega), linear_low (by omega), h1, h2, hzero, Nat.zero_mul, Nat.zero_add,
      transfer_stage2, if_neg (by omega), hplace, relocate_code a20 dx m (by omega)]
    rfl
  exact ⟨StringAt.shift hsame, StringAt.shift fun i hi => (hsame i hi).symm⟩

/-- **What the boot sector says.**  When the sectors cannot be read it prints the string at its
label in the code.  When the extensions are missing it looks up the label in the segment it was
loaded to: what is printed is the string that lies one sector behind, in memory that nobody
loaded. -/
theorem stage1_messages {m : Mem} (h : PacketLoaded m) (bios : Bios) (a20 : Bool)
    (labels : Labels) (dx : BitVec 16) (text : List (BitVec 8)) :
    (bios.edd.supported = true → (bios.read stage2Packet).carry = true →
      ORG ≤ labels.ERR_MSG_CD_READ.toNat →
      labels.ERR_MSG_CD_READ.toNat + text.length < ORG + CD_SECT_SIZE →
      ((∃ fuel, stage1 a20 labels bios fuel dx m = some (.printed text)) ↔
        StringAt a20 m STAGE1_SRC_SEG (labels.ERR_MSG_CD_READ - BitVec.ofNat 16 ORG) text)) ∧
    (bios.edd.supported = false →
      ((∃ fuel, stage1 a20 labels bios fuel dx m = some (.printed text)) ↔
        StringAt a20 m STAGE1_SRC_SEG labels.ERR_MSG_EDD_NSUP text)) := by
  constructor
  · intro hedd hread hlo hhi
    have hfail : ∀ fuel, stage1 a20 labels bios fuel dx m =
        readFail a20 fuel labels.ERR_MSG_CD_READ 0
          (transfer stage2Packet (bios.read stage2Packet) (relocate a20 dx m).2) := by
      intro fuel
      rw [stage1_eq, if_pos hedd]
      unfold loadStage2
      simp only [readPacket_relocated h, hread, if_true]
    simp only [hfail]
    rw [readFail_iff, stringAt_moved _ hlo hhi]
  · intro hedd
    have hfail : ∀ fuel, stage1 a20 labels bios fuel dx m =
        readFail a20 fuel labels.ERR_MSG_EDD_NSUP STAGE1_SRC_SEG (relocate a20 dx m).2 := by
      intro fuel
      rw [stage1_eq, hedd]
      rfl
    simp only [hfail]
    rw [readFail_iff, stringAt_source]

/-- One text for both labels: the first error prints it, the second prints nothing. -/
theorem stage1_messages_sample :
    (∃ fuel, stage1 false sampleLabels { sampleBios with read := fun _ => ⟨true, fun _ => 0⟩ } fuel
      0x00E0 sampleSector = some (.printed [0x45])) ∧
    (∃ fuel, stage1 false sampleLabels { sampleBios with edd := ⟨true, 0, 0, 0⟩ } fuel
      0x00E0 sampleSector = some (.printed [])) := by
  constructor
  · refine ((stage1_messages sampleSector_packet _ false sampleLabels 0x00E0 [0x45]).1 rfl rfl
      (by decide) (by decide)).mpr ?_
    exact ⟨by decide, rfl, rfl⟩
  · refine ((stage1_messages sampleSector_packet _ false sampleLabels 0x00E0 []).2 rfl).mpr ?_
    rfl

end Ziemniak.Stage1
