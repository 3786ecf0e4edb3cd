import Ziemniak.BareMetal.Memory
import Ziemniak.BareMetal.Ports
import Ziemniak.Stage2.Defs

/-! # The ATAPI driver

`cdrom.c`: detecting the drive, reading one sector through its ports, and searching the root
directory of the disk for the kernel.

The driver runs against any `Device`, so every answer of the drive is covered: a read may end
with the error bit, deliver any byte count, or never end.  `cdromReadSector` returns what the C
function returns together with the words it stored (`Reply`); its callers put them where the
pointer they pass says.  Everything above that function only needs a `Reader`, a way to read
sectors, and `logged` keeps the list of what a reader was asked and what it answered. -/

namespace Ziemniak.Stage2

open BareMetal

/-! ### Commands and registers -/

def PATAPI_ID : BitVec 16 := 0xEB14

/-- The static variables of the driver. -/
structure Cdrom where
  io_port : BitVec 16
  ctl_port : BitVec 16
  is_slave : BitVec 8
deriving DecidableEq, Repr

/-- The value `cdrom_read_sector` returns and the words it stored at `buf`. -/
structure Reply where
  rd_size : BitVec 16
  words : List (BitVec 16)
deriving DecidableEq, Repr

section driver

variable {δ : Type} (dev : Device δ)

/-- Four reads of the control port. -/
def delay (ctl_port : BitVec 16) (d : δ) : δ :=
  let d := (dev.inb ctl_port d).2
  let d := (dev.inb ctl_port d).2
  let d := (dev.inb ctl_port d).2
  (dev.inb ctl_port d).2

def cdromSoftReset (fuel : ℕ) (cd : Cdrom) (d : δ) : Option δ := do
  let d := dev.outb cd.ctl_port 0x04 d
  let d := dev.outb cd.ctl_port 0x00 d
  let d := delay dev cd.ctl_port d
  let (_, d) ← dev.poll fuel cd.ctl_port (fun sts => sts &&& 0xC0 == 0x80) d
  return d

/-- `(high << 8) | low` for two registers. -/
def registerPair (high low : BitVec 8) : BitVec 16 := (high.setWidth 16 <<< 8) ||| low.setWidth 16

/-- `0` and the driver's variables, or `-1` for an unsupported disk. -/
def cdromInit (fuel : ℕ) (disk_io disk_ctl : BitVec 16) (is_slv : BitVec 8) (d : δ) :
    Option (ℤ × Cdrom × δ) := do
  let cd : Cdrom :=
    { io_port := disk_io, ctl_port := disk_ctl, is_slave := if is_slv ≠ 0 then 1 else 0 }
  let d ← cdromSoftReset dev fuel cd d
  let d := dev.outb (cd.io_port + 0x06) (0xA0 ||| (cd.is_slave <<< 4)) d
  let d := delay dev cd.ctl_port d
  let sig_low := dev.inb (cd.io_port + 0x04) d
  let sig_high := dev.inb (cd.io_port + 0x05) sig_low.2
  if registerPair sig_high.1 sig_low.1 ≠ PATAPI_ID then
    return (-1, cd, sig_high.2)
  return (0, cd, sig_high.2)

/-- Byte `k` of an LBA, from the top: `read_cmd[2 + k]`. -/
def lbaByte (lba : BitVec 32) (k : ℕ) : BitVec 8 := ((lba >>> (24 - 8 * k)) &&& 0xFF).setWidth 8

/-- The twelve bytes of `read_cmd`, as the words that `outsw` sends. -/
def readCmd (lba : BitVec 32) : List (BitVec 16) :=
  [0x0028, lbaByte lba 1 ++ lbaByte lba 0, lbaByte lba 3 ++ lbaByte lba 2, 0, 0x0001, 0]

/-- Select the drive, set the byte count limit and give the packet command. -/
def startPacket (cd : Cdrom) (d : δ) : δ :=
  let d := dev.clearFlag d
  let d := dev.outb (cd.io_port + 0x06) (cd.is_slave <<< 4) d
  let d := delay dev cd.ctl_port d
  let d := dev.outb (cd.io_port + 0x01) 0x00 d
  let d := dev.outb (cd.io_port + 0x04) (BitVec.ofNat 8 (CD_SECTOR_SIZE % 256)) d
  let d := dev.outb (cd.io_port + 0x05) (BitVec.ofNat 8 (CD_SECTOR_SIZE / 256)) d
  dev.outb (cd.io_port + 0x07) 0xA0 d

/-- `none` when the device keeps the driver waiting. -/
def cdromReadSector (fuel : ℕ) (cd : Cdrom) (lba : BitVec 32) (d : δ) : Option (Reply × δ) := do
  let d := startPacket dev cd d
  let (_, d) ← dev.poll fuel (cd.io_port + 0x07) (fun sts => sts &&& 0x80 != 0) d
  let (sts, d) ← dev.poll fuel (cd.io_port + 0x07)
    (fun sts => sts &&& 0x8 == 0 && sts &&& 0x1 == 0) d
  if sts &&& 0x01 ≠ 0 then
    return ({ rd_size := 0, words := [] }, d)
  let d := dev.outsw cd.io_port (readCmd lba) d
  let (_, d) ← dev.awaitFlag fuel d
  let high := dev.inb (cd.io_port + 0x05) d
  let low := dev.inb (cd.io_port + 0x04) high.2
  let rd_size := registerPair high.1 low.1
  let data := dev.insw cd.io_port (rd_size.toNat / 2) low.2
  let (_, d) ← dev.poll fuel (cd.io_port + 0x07) (fun sts => sts &&& 0x88 != 0) data.2
  return ({ rd_size, words := data.1 }, d)

end driver

theorem registerPair_eq (high low : BitVec 8) : registerPair high low = high ++ low := by
  have hh := high.isLt
  have hl := low.isLt
  apply BitVec.eq_of_toNat_eq
  unfold registerPair
  rw [toNat_append_eq, ← Nat.shiftLeft_eq, Nat.shiftLeft_add_eq_or_of_lt hl]
  simp only [BitVec.toNat_or, BitVec.toNat_shiftLeft, BitVec.toNat_setWidth, Nat.shiftLeft_eq]
  rw [Nat.mod_eq_of_lt (by omega : low.toNat < 2 ^ 16),
    Nat.mod_eq_of_lt (by omega : high.toNat < 2 ^ 16),
    Nat.mod_eq_of_lt (by omega : high.toNat * 2 ^ 8 < 2 ^ 16)]

theorem cdromReadSector_length {δ : Type} {dev : Device δ} {fuel : ℕ} {cd : Cdrom}
    {lba : BitVec 32} {d d' : δ} {r : Reply}
    (h : cdromReadSector dev fuel cd lba d = some (r, d')) :
    r.words.length = r.rd_size.toNat / 2 := by
  unfold cdromReadSector at h
  simp only [Option.bind_eq_bind, Option.bind_eq_some_iff, Option.pure_def] at h
  obtain ⟨-, -, sts, -, h⟩ := h
  split_ifs at h with herr
  · obtain ⟨rfl, -⟩ := Prod.mk.inj (Option.some.inj h)
    rfl
  · obtain ⟨a, -, h⟩ := Option.bind_eq_some_iff.mp h
    obtain ⟨b, -, h⟩ := Option.bind_eq_some_iff.mp h
    obtain ⟨rfl, -⟩ := Prod.mk.inj (Option.some.inj h)
    exact dev.insw_length _ _ _

/-! ### Reading sectors -/

/-- A way to read the sector at an LBA. -/
abbrev Reader (δ : Type) := BitVec 32 → δ → Option (Reply × δ)

/-- The buffer a sector is read into, as bytes from its start. -/
abbrev Buf := ℕ → BitVec 8

/-- Store what was read at the start of the buffer. -/
def Reply.store (r : Reply) (buf : Buf) : Buf := storeWords buf 0 r.words

/-! ### The directory -/

def PVD_START : BitVec 32 := 0x10
def PVD_SIGNATURE : BitVec 8 := 0x01
def DIR_OFFSET : ℕ := 0x9C
def DIR_SIZE : BitVec 32 := 0x00
def DIR_EXT_LOC : BitVec 32 := 0x02
def DIR_EXT_SIZE : BitVec 32 := 0x0A
def DIR_FILENAME : BitVec 32 := 0x21

/-- The loop of `compare_str` from index `i` on; the string ends with the list or at a zero. -/
def compareFrom (mem : ℕ → BitVec 8) : ℕ → List (BitVec 8) → ℕ
  | _, [] => 0
  | i, c :: str =>
      if c = 0 then 0
      else if c ≠ mem i then i + 1
      else if i = 256 then i
      else compareFrom mem (i + 1) str

def compareStr (str : List (BitVec 8)) (mem : ℕ → BitVec 8) : ℕ := compareFrom mem 0 str

/-- One round of the loop of `search_directory`; the state is the offset and whether the record
there matched. -/
def searchRecord (buf : Buf) (fname : List (BitVec 8)) (s : BitVec 32 × Bool) : BitVec 32 × Bool :=
  if compareStr fname (fun i => buf ((DIR_FILENAME + s.1).toNat + i)) = 0 then (s.1, true)
  else (s.1 + (buf (DIR_SIZE + s.1).toNat).setWidth 32, false)

/-- The returned LBA, `0` when nothing matched, and the new `*fsize`. -/
def searchDirectory (fuel : ℕ) (fsize : BitVec 32) (buf : Buf) (fname : List (BitVec 8)) :
    Option (BitVec 32 × BitVec 32) := do
  let (offset, found) ← whileLoop
    (fun s : BitVec 32 × Bool => !s.2 && buf (DIR_SIZE + s.1).toNat != 0x00)
    (fun s => some (searchRecord buf fname s)) fuel (0, false)
  if found then
    return (read32 buf (DIR_EXT_LOC + offset).toNat, read32 buf (DIR_EXT_SIZE + offset).toNat)
  else
    return (0, fsize)

section search

variable {δ : Type} (read : Reader δ)

/-- `while (buff[0] != PVD_SIGNATURE)`; the state is `lba_off`, the buffer and the device. -/
def findDescriptor (fuel : ℕ) (buf : Buf) (d : δ) : Option (BitVec 32 × Buf × δ) :=
  whileLoop (fun s : BitVec 32 × Buf × δ => s.2.1 0 != PVD_SIGNATURE)
    (fun s => (read (PVD_START + s.1) s.2.2).map (fun r => (s.1 + 1, r.1.store s.2.1, r.2)))
    fuel (0, buf, d)

/-- The state of the loop over the sectors of the directory. -/
structure DirScan (δ : Type) where
  cur_dir_lba : BitVec 32
  temp : BitVec 32
  fsize : BitVec 32
  buf : Buf
  dev : δ

/-- One round of that loop. -/
def scanSector (fuel : ℕ) (fname : List (BitVec 8)) (dir_lba : BitVec 32) (s : DirScan δ) :
    Option (DirScan δ) := do
  let (r, d) ← read (dir_lba + s.cur_dir_lba) s.dev
  let buf := r.store s.buf
  let (temp, fsize) ← searchDirectory fuel s.fsize buf fname
  return { cur_dir_lba := s.cur_dir_lba + 1, temp, fsize, buf, dev := d }

/-- `for (cur_dir_lba = 0; cur_dir_lba < (dir_sectors); cur_dir_lba++)`, left when a file is
found. -/
def scanDirectory (fuel : ℕ) (fname : List (BitVec 8)) (dir_lba : BitVec 32)
    (dir_sectors : BitVec 16) (s : DirScan δ) : Option (DirScan δ) :=
  whileLoop
    (fun s : DirScan δ => s.temp == 0 && decide (s.cur_dir_lba < dir_sectors.setWidth 32))
    (scanSector read fuel fname dir_lba) fuel s

/-- The LBA of the file, `0` when there is none, and its size. -/
def cdromSearch (fuel : ℕ) (fname : List (BitVec 8)) (fsize : BitVec 32) (buf : Buf) (d : δ) :
    Option ((BitVec 32 × BitVec 32) × Buf × δ) := do
  let (_, buf, d) ← findDescriptor read fuel buf d
  let dir_lba := read32 buf (DIR_OFFSET + DIR_EXT_LOC.toNat)
  let dir_size := read32 buf (DIR_OFFSET + DIR_EXT_SIZE.toNat)
  let dir_sectors := (dir_size / BitVec.ofNat 32 CD_SECTOR_SIZE).setWidth 16
  let s ← scanDirectory read fuel fname dir_lba dir_sectors
    { cur_dir_lba := 0, temp := 0, fsize, buf, dev := d }
  if s.temp ≠ 0 then
    return ((s.temp, s.fsize), s.buf, s.dev)
  else
    return ((0, 0), s.buf, s.dev)

end search

/-! ### More fuel -/

theorem cdromReadSector_mono {δ : Type} {dev : Device δ} {n k : ℕ} (hnk : n ≤ k) {cd : Cdrom}
    {lba : BitVec 32} {d : δ} {r : Reply × δ} (h : cdromReadSector dev n cd lba d = some r) :
    cdromReadSector dev k cd lba d = some r := by
  unfold cdromReadSector at h ⊢
  simp only [Option.bind_eq_bind, Option.bind_eq_some_iff, Option.pure_def] at h ⊢
  obtain ⟨a, ha, b, hb, h⟩ := h
  refine ⟨a, whileLoop_mono hnk ha, b, whileLoop_mono hnk hb, ?_⟩
  split_ifs at h ⊢ with herr
  · exact h
  · obtain ⟨e, he, h⟩ := Option.bind_eq_some_iff.mp h
    obtain ⟨g, hg, h⟩ := Option.bind_eq_some_iff.mp h
    exact Option.bind_eq_some_iff.mpr ⟨e, whileLoop_mono hnk he,
      Option.bind_eq_some_iff.mpr ⟨g, whileLoop_mono hnk hg, h⟩⟩

theorem searchDirectory_mono {n k : ℕ} (hnk : n ≤ k) {fsize : BitVec 32} {buf : Buf}
    {fname : List (BitVec 8)} {r : BitVec 32 × BitVec 32}
    (h : searchDirectory n fsize buf fname = some r) :
    searchDirectory k fsize buf fname = some r := by
  unfold searchDirectory at h ⊢
  simp only [Option.bind_eq_bind, Option.bind_eq_some_iff] at h ⊢
  obtain ⟨t, ht, hr⟩ := h
  exact ⟨t, whileLoop_mono hnk ht, hr⟩

theorem scanDirectory_mono {δ : Type} {read : Reader δ} {n k : ℕ} (hnk : n ≤ k)
    {fname : List (BitVec 8)} {dir_lba : BitVec 32} {dir_sectors : BitVec 16} {s t : DirScan δ}
    (h : scanDirectory read n fname dir_lba dir_sectors s = some t) :
    scanDirectory read k fname dir_lba dir_sectors s = some t := by
  refine whileLoop_le ?_ hnk h
  intro a b hab
  unfold scanSector at hab ⊢
  simp only [Option.bind_eq_bind, Option.bind_eq_some_iff] at hab ⊢
  obtain ⟨u, hu, v, hv, hb⟩ := hab
  exact ⟨u, hu, v, searchDirectory_mono hnk hv, hb⟩

theorem cdromSearch_mono {δ : Type} {read : Reader δ} {n k : ℕ} (hnk : n ≤ k)
    {fname : List (BitVec 8)} {fsize : BitVec 32} {buf : Buf} {d : δ}
    {r : (BitVec 32 × BitVec 32) × Buf × δ} (h : cdromSearch read n fname fsize buf d = some r) :
    cdromSearch read k fname fsize buf d = some r := by
  unfold cdromSearch at h ⊢
  simp only [Option.bind_eq_bind, Option.bind_eq_some_iff] at h ⊢
  obtain ⟨t, ht, s, hs, hr⟩ := h
  exact ⟨t, whileLoop_mono hnk ht, s, scanDirectory_mono hnk hs, hr⟩

/-! ### The disk behind the drive -/

/-- What a reader was asked and what it answered, in order. -/
abbrev Log := List (BitVec 32 × Reply)

/-- A reader that keeps its log. -/
def logged {δ : Type} (read : Reader δ) : Reader (δ × Log) := fun lba s =>
  (read lba s.1).map (fun r => (r.1, (r.2, s.2 ++ [(lba, r.1)])))

/-- The bytes of every sector. -/
abbrev Disk := BitVec 32 → ℕ → BitVec 8

/-- A sector as words, the low byte first. -/
def sectorWords (sector : ℕ → BitVec 8) : List (BitVec 16) :=
  (List.range 1024).map (fun i => sector (2 * i + 1) ++ sector (2 * i))

/-- The answer that delivers the whole sector. -/
def fullReply (sector : ℕ → BitVec 8) : Reply := { rd_size := 2048, words := sectorWords sector }

/-- Reading without faults. -/
def diskReader (disk : Disk) : Reader Unit := fun lba _ => some (fullReply (disk lba), ())

/-- A read that stored exactly the words of its sector. -/
def Whole (disk : Disk) (e : BitVec 32 × Reply) : Prop := e.2.words = sectorWords (disk e.1)

theorem sectorWords_length (sector : ℕ → BitVec 8) : (sectorWords sector).length = 1024 := by
  simp [sectorWords]

theorem byteOf_sectorWords (sector : ℕ → BitVec 8) {j : ℕ} (hj : j < 2048) :
    byteOf (sectorWords sector) j = sector j := by
  have hd : (sectorWords sector).getD (j / 2) 0 =
      sector (2 * (j / 2) + 1) ++ sector (2 * (j / 2)) := by
    have hi : j / 2 < 1024 := by omega
    simp [sectorWords, List.getD_eq_getElem?_getD, hi]
  have hlo := (sector (2 * (j / 2))).isLt
  have hhi := (sector (2 * (j / 2) + 1)).isLt
  apply BitVec.eq_of_toNat_eq
  unfold byteOf
  rw [hd, BitVec.toNat_ofNat, toNat_append_eq]
  cases Nat.mod_two_eq_zero_or_one j with
  | inl h =>
      have e : sector j = sector (2 * (j / 2)) := congrArg sector (by omega)
      rw [h, e]
      omega
  | inr h =>
      have e : sector j = sector (2 * (j / 2) + 1) := congrArg sector (by omega)
      rw [h, e]
      omega

theorem fullReply_store (sector : ℕ → BitVec 8) (buf : Buf) (j : ℕ) :
    (fullReply sector).store buf j = if j < 2048 then sector j else buf j := by
  have h0 : above 0 j = j % 2 ^ 32 := by simp [above]
  rw [Reply.store, fullReply, storeWords_apply (by simp) (by simp [sectorWords_length]),
    sectorWords_length, h0]
  by_cases hj : j < 2048
  · rw [if_pos (by omega), if_pos hj, Nat.mod_eq_of_lt (by omega), byteOf_sectorWords sector hj]
  · rw [if_neg (by omega), if_neg hj]

theorem Whole.store {disk : Disk} {lba : BitVec 32} {r : Reply} (h : Whole disk (lba, r))
    (buf : Buf) : r.store buf = (fullReply (disk lba)).store buf := by
  unfold Whole at h
  unfold Reply.store fullReply
  rw [h]

/-! ### Reads and their answers -/

section reads

variable {δ : Type} {read : Reader δ}

/-- Asked for the sectors of the list one after another, the reader gives the answers in it. -/
def Reads (read : Reader δ) : δ → Log → δ → Prop
  | d, [], d' => d' = d
  | d, e :: log, d' => ∃ d₁, read e.1 d = some (e.2, d₁) ∧ Reads read d₁ log d'

/-- Asked for the sectors one after another, the reader answers as `P` says. -/
def Answers (read : Reader δ) (P : BitVec 32 × Reply → Prop) (lbas : List (BitVec 32))
    (d d' : δ) : Prop :=
  ∃ log, Reads read d log d' ∧ log.map Prod.fst = lbas ∧ ∀ e ∈ log, P e

theorem reads_append {log log' : Log} {d d' : δ} : Reads read d (log ++ log') d' ↔
    ∃ d₁, Reads read d log d₁ ∧ Reads read d₁ log' d' := by
  induction log generalizing d with
  | nil => simp [Reads]
  | cons e log ih =>
      simp only [List.cons_append, Reads, ih]
      constructor
      · rintro ⟨d₁, h, d₂, h₁, h₂⟩
        exact ⟨d₂, ⟨d₁, h, h₁⟩, h₂⟩
      · rintro ⟨d₂, ⟨d₁, h, h₁⟩, h₂⟩
        exact ⟨d₁, h, d₂, h₁, h₂⟩

theorem reads_singleton {e : BitVec 32 × Reply} {d d' : δ} :
    Reads read d [e] d' ↔ read e.1 d = some (e.2, d') := by
  simp [Reads]

theorem Reads.mem {log : Log} {d d' : δ} (h : Reads read d log d') {e : BitVec 32 × Reply}
    (he : e ∈ log) : ∃ b b', read e.1 b = some (e.2, b') := by
  induction log generalizing d with
  | nil => cases he
  | cons e log ih =>
      obtain ⟨b, hb, h⟩ := h
      cases he with
      | head => exact ⟨d, b, hb⟩
      | tail _ he => exact ih h he

theorem answers_of_forall {P : BitVec 32 × Reply → Prop}
    (h : ∀ lba d, ∃ r d', read lba d = some (r, d') ∧ P (lba, r)) (lbas : List (BitVec 32))
    (d : δ) : ∃ d', Answers read P lbas d d' := by
  induction lbas generalizing d with
  | nil => exact ⟨d, [], rfl, rfl, fun e he => absurd he (List.not_mem_nil)⟩
  | cons lba lbas ih =>
      obtain ⟨r, d₁, hr, hp⟩ := h lba d
      obtain ⟨d', log, hreads, rfl, hall⟩ := ih d₁
      exact ⟨d', (lba, r) :: log, ⟨d₁, hr, hreads⟩, rfl, List.forall_mem_cons.mpr ⟨hp, hall⟩⟩

/-- The sectors asked for determine the answers. -/
theorem Reads.unique {log log' : Log} {d d₁ d₂ : δ} (h : Reads read d log d₁)
    (h' : Reads read d log' d₂) (hl : log.map Prod.fst = log'.map Prod.fst) :
    log = log' ∧ d₁ = d₂ := by
  induction log generalizing d log' with
  | nil =>
      obtain rfl := List.map_eq_nil_iff.mp hl.symm
      exact ⟨rfl, h.trans h'.symm⟩
  | cons e log ih =>
      obtain ⟨e', log', rfl, he, hl⟩ := List.map_eq_cons_iff.mp hl.symm
      obtain ⟨b, hb, h⟩ := h
      obtain ⟨b', hb', h'⟩ := h'
      rw [he, hb, Option.some.injEq, Prod.mk.injEq] at hb'
      obtain ⟨hr, rfl⟩ := hb'
      obtain ⟨rfl, rfl⟩ := ih h h' hl.symm
      exact ⟨by rw [Prod.ext he.symm hr], rfl⟩

theorem logged_eq_some {lba : BitVec 32} {s s' : δ × Log} {r : Reply} :
    logged read lba s = some (r, s') ↔
      read lba s.1 = some (r, s'.1) ∧ s'.2 = s.2 ++ [(lba, r)] := by
  unfold logged
  rw [Option.map_eq_some_iff]
  constructor
  · rintro ⟨⟨r₁, d⟩, hr, he⟩
    obtain ⟨rfl, rfl⟩ := Prod.mk.inj he
    exact ⟨hr, rfl⟩
  · rintro ⟨hr, hl⟩
    exact ⟨_, hr, Prod.ext rfl (Prod.ext rfl hl.symm)⟩

end reads

/-! ### Two readers with the same words -/

/-- From related states, and on the way to a good one, the second reader stores the words that
the first one stores. -/
structure Follows {δ ε : Type} (read : Reader δ) (read' : Reader ε) (G : δ → Prop)
    (R : δ → ε → Prop) : Prop where
  back : ∀ lba d r d', read lba d = some (r, d') → G d' → G d
  step : ∀ lba d r d' e, R d e → read lba d = some (r, d') → G d' →
    ∃ r' e', read' lba e = some (r', e') ∧ r'.words = r.words ∧ R d' e'

section follow

variable {δ ε : Type} {read : Reader δ} {read' : Reader ε} {G : δ → Prop} {R : δ → ε → Prop}

theorem Reply.store_congr {r r' : Reply} (h : r'.words = r.words) (buf : Buf) :
    r'.store buf = r.store buf := by
  unfold Reply.store
  rw [h]

theorem Follows.descriptor (F : Follows read read' G R) {fuel : ℕ} {buf : Buf} {d : δ}
    {t : BitVec 32 × Buf × δ} (h : findDescriptor read fuel buf d = some t) (hg : G t.2.2) :
    G d ∧ ∀ e, R d e → ∃ e', findDescriptor read' fuel buf e = some (t.1, t.2.1, e') ∧
      R t.2.2 e' := by
  obtain ⟨hgd, hrun⟩ := whileLoop_follow
    (d := fun u : BitVec 32 × Buf × ε => u.2.1 0 != PVD_SIGNATURE)
    (g := fun u => (read' (PVD_START + u.1) u.2.2).map (fun r => (u.1 + 1, r.1.store u.2.1, r.2)))
    (R := fun s u => u.1 = s.1 ∧ u.2.1 = s.2.1 ∧ R s.2.2 u.2.2) (G := fun s => G s.2.2)
    (by rintro s u ⟨-, hb, -⟩; rw [hb])
    (by
      rintro ⟨n, b, d⟩ s' hs hg
      obtain ⟨⟨r, d'⟩, hr, rfl⟩ := Option.map_eq_some_iff.mp hs
      exact F.back _ _ _ _ hr hg)
    (by
      rintro ⟨n, b, d⟩ ⟨n', b', e⟩ s' ⟨rfl, rfl, hR⟩ hs hg
      obtain ⟨⟨r, d'⟩, hr, rfl⟩ := Option.map_eq_some_iff.mp hs
      obtain ⟨r', e', hr', hw, hR'⟩ := F.step _ _ _ _ _ hR hr hg
      exact ⟨_, Option.map_eq_some_iff.mpr ⟨(r', e'), hr', rfl⟩, rfl,
        Reply.store_congr hw _, hR'⟩)
    h hg
  refine ⟨hgd, ?_⟩
  intro e hR
  obtain ⟨⟨n, b, e'⟩, hv, rfl, rfl, hR'⟩ := hrun (0, buf, e) ⟨rfl, rfl, hR⟩
  exact ⟨e', hv, hR'⟩

theorem Follows.sector (F : Follows read read' G R) {fuel : ℕ} {fname : List (BitVec 8)}
    {dir_lba : BitVec 32} {s s' : DirScan δ} (h : scanSector read fuel fname dir_lba s = some s')
    (hg : G s'.dev) : G s.dev ∧ ∀ e, R s.dev e → ∃ e',
      scanSector read' fuel fname dir_lba { s with dev := e } = some { s' with dev := e' } ∧
      R s'.dev e' := by
  unfold scanSector at h ⊢
  simp only [Option.bind_eq_bind, Option.bind_eq_some_iff, Option.pure_def,
    Option.some.injEq] at h ⊢
  obtain ⟨⟨r, d⟩, hr, ⟨temp, fsize⟩, hs, rfl⟩ := h
  refine ⟨F.back _ _ _ _ hr hg, ?_⟩
  intro e hR
  obtain ⟨r', e', hr', hw, hR'⟩ := F.step _ _ _ _ _ hR hr hg
  have hb := Reply.store_congr hw s.buf
  exact ⟨e', ⟨(r', e'), hr', (temp, fsize), by rw [hb]; exact hs, by rw [hb]⟩, hR'⟩

theorem Follows.directory (F : Follows read read' G R) {fuel : ℕ} {fname : List (BitVec 8)}
    {dir_lba : BitVec 32} {dir_sectors : BitVec 16} {s t : DirScan δ}
    (h : scanDirectory read fuel fname dir_lba dir_sectors s = some t) (hg : G t.dev) :
    G s.dev ∧ ∀ e, R s.dev e → ∃ e',
      scanDirectory read' fuel fname dir_lba dir_sectors { s with dev := e } =
        some { t with dev := e' } ∧ R t.dev e' := by
  obtain ⟨hgd, hrun⟩ := whileLoop_follow
    (d := fun u : DirScan ε => u.temp == 0 && decide (u.cur_dir_lba < dir_sectors.setWidth 32))
    (g := scanSector read' fuel fname dir_lba)
    (R := fun s u => ∃ e, u = { s with dev := e } ∧ R s.dev e) (G := fun s => G s.dev)
    (by rintro s u ⟨e, rfl, -⟩; rfl)
    (fun s s' hs hg => (F.sector hs hg).1)
    (by
      rintro s u s' ⟨e, rfl, hR⟩ hs hg
      obtain ⟨e', hs', hR'⟩ := (F.sector hs hg).2 e hR
      exact ⟨_, hs', e', rfl, hR'⟩)
    h hg
  refine ⟨hgd, ?_⟩
  intro e hR
  obtain ⟨v, hv, e', rfl, hR'⟩ := hrun { s with dev := e } ⟨e, rfl, hR⟩
  exact ⟨e', hv, hR'⟩

/-- The search asks the same of both readers and finds the same. -/
theorem Follows.search (F : Follows read read' G R) {fuel : ℕ} {fname : List (BitVec 8)}
    {fsize : BitVec 32} {buf b : Buf} {d d' : δ} {res : BitVec 32 × BitVec 32}
    (h : cdromSearch read fuel fname fsize buf d = some (res, b, d')) (hg : G d') {e : ε}
    (hR : R d e) : ∃ e', cdromSearch read' fuel fname fsize buf e = some (res, b, e') ∧
      R d' e' := by
  unfold cdromSearch at h ⊢
  simp only [Option.bind_eq_bind, Option.bind_eq_some_iff] at h ⊢
  obtain ⟨⟨n, b₁, d₁⟩, hfind, t, hscan, hres⟩ := h
  have hdev : t.dev = d' := by
    split_ifs at hres <;> simpa using congrArg (fun o => o.map (fun r => r.2.2)) hres
  obtain ⟨hg₁, hscan'⟩ := F.directory hscan (by rw [hdev]; exact hg)
  obtain ⟨e₁, hfind', hR₁⟩ := (F.descriptor hfind hg₁).2 e hR
  obtain ⟨e', hs, hR'⟩ := hscan' e₁ hR₁
  rw [hdev] at hR'
  refine ⟨e', ⟨_, hfind', _, hs, ?_⟩, hR'⟩
  split_ifs at hres ⊢ with h0
  · obtain ⟨rfl, rfl, -⟩ := by simpa using hres
    rfl
  · obtain ⟨rfl, rfl, -⟩ := by simpa using hres
    rfl

end follow

/-! ### The disk and the drive -/

section disk

variable {δ : Type} {read : Reader δ} {disk : Disk}

/-- As long as the drive delivers whole sectors, the disk gives what the drive gives. -/
theorem follows_disk : Follows (logged read) (logged (diskReader disk))
    (fun s => ∀ e ∈ s.2, Whole disk e) (fun s u => u.2.map Prod.fst = s.2.map Prod.fst) where
  back := by
    intro lba s r s' hr hg e he
    rw [(logged_eq_some.mp hr).2] at hg
    exact hg e (List.mem_append_left _ he)
  step := by
    intro lba s r s' u hR hr hg
    obtain ⟨-, hlog⟩ := logged_eq_some.mp hr
    have hw : r.words = sectorWords (disk lba) := hg (lba, r) (by rw [hlog]; simp)
    have hdisk : logged (diskReader disk) lba u =
        some (fullReply (disk lba), ((), u.2 ++ [(lba, fullReply (disk lba))])) := rfl
    refine ⟨_, _, hdisk, by rw [hw, fullReply], ?_⟩
    rw [hlog, List.map_append, List.map_append, hR]
    rfl

/-- A drive that answers the reads of a run on the disk with whole sectors makes the same run. -/
theorem disk_follows (read : Reader δ) (d₀ : δ) : Follows (logged (diskReader disk)) (logged read)
    (fun s => ∃ d', Answers read (Whole disk) (s.2.map Prod.fst) d₀ d')
    (fun s u => Reads read d₀ u.2 u.1 ∧ u.2.map Prod.fst = s.2.map Prod.fst) where
  back := by
    rintro lba s r s' hr ⟨d', log, hreads, hlbas, hw⟩
    rw [(logged_eq_some.mp hr).2, List.map_append] at hlbas
    obtain ⟨log₁, log₂, rfl, hl₁, -⟩ := List.map_eq_append_iff.mp hlbas
    obtain ⟨d₁, h₁, -⟩ := reads_append.mp hreads
    exact ⟨d₁, log₁, h₁, hl₁, fun e he => hw e (List.mem_append_left _ he)⟩
  step := by
    rintro lba s r s' u ⟨hu, hlu⟩ hr ⟨d', log, hreads, hlbas, hw⟩
    obtain ⟨hdisk, hlog⟩ := logged_eq_some.mp hr
    rw [hlog, List.map_append] at hlbas
    obtain ⟨log₁, log₂, rfl, hl₁, hl₂⟩ := List.map_eq_append_iff.mp hlbas
    obtain ⟨⟨lba', r'⟩, rfl, rfl⟩ := List.map_eq_singleton_iff.mp hl₂
    obtain ⟨d₁, h₁, h₂⟩ := reads_append.mp hreads
    obtain ⟨rfl, rfl⟩ := h₁.unique hu (hl₁.trans hlu.symm)
    have hread := reads_singleton.mp h₂
    have hr' : r'.words = sectorWords (disk lba') := hw (lba', r') (by simp)
    obtain rfl : fullReply (disk lba') = r := congrArg Prod.fst (Option.some.inj hdisk)
    refine ⟨r', (d', u.2 ++ [(lba', r')]), logged_eq_some.mpr ⟨hread, rfl⟩,
      by rw [hr', fullReply], reads_append.mpr ⟨u.1, hu, reads_singleton.mpr hread⟩, ?_⟩
    rw [hlog, List.map_append, List.map_append, hlu]
    rfl

end disk

end Ziemniak.Stage2
