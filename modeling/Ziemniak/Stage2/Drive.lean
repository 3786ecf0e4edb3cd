import Ziemniak.Stage2.Cdrom

/-! # A drive

A device that answers the driver as an ATAPI drive with a disk in it does: it accepts the
packet, interrupts, and either presents 2048 bytes of the addressed sector or, for a sector it
cannot read, ends the command with no data.  Against it the driver either delivers the sector
or returns 0 (`cdromReadSector_drive`). -/

namespace Ziemniak.Stage2

open BareMetal

/-- The registers of the drive the driver looks at, and the last packet. -/
structure Drive where
  drq : Bool
  count : BitVec 16
  packet : List (BitVec 16)
deriving DecidableEq, Repr

/-- The LBA in a READ packet, most significant byte first. -/
def packetLba : List (BitVec 16) → BitVec 32
  | _ :: high :: low :: _ =>
      high.setWidth 8 ++ (high >>> 8).setWidth 8 ++ low.setWidth 8 ++ (low >>> 8).setWidth 8
  | _ => 0

/-- The status, byte count and other registers. -/
def Drive.register (s : Drive) (io_port port : BitVec 16) : BitVec 8 :=
  if port = io_port + 0x07 then if s.drq then 0x48 else 0x40
  else if port = io_port + 0x05 then (s.count >>> 8).setWidth 8
  else if port = io_port + 0x04 then s.count.setWidth 8
  else 0x40

/-- The drive at `io_port` with `disk` in it; `bad` sectors cannot be read. -/
def drive (disk : Disk) (bad : BitVec 32 → Bool) (io_port : BitVec 16) : Device Drive where
  inb port s := (s.register io_port port, s)
  outb port v s := if port = io_port + 0x07 ∧ v = 0xA0 then { s with drq := true } else s
  insw _ n s :=
    ((List.range n).map (fun i =>
      disk (packetLba s.packet) (2 * i + 1) ++ disk (packetLba s.packet) (2 * i)),
      { s with drq := false })
  outsw _ ws _ :=
    if bad (packetLba ws) then { drq := false, count := 0, packet := ws }
    else { drq := true, count := 2048, packet := ws }
  irq s := (0x02, s)
  insw_length _ n s := by simp

theorem lbaByte_toNat (lba : BitVec 32) (k : ℕ) :
    (lbaByte lba k).toNat = lba.toNat / 2 ^ (24 - 8 * k) % 256 := by
  have hbits : ((lba >>> (24 - 8 * k)) &&& 0xFF).toNat = lba.toNat / 2 ^ (24 - 8 * k) % 2 ^ 8 :=
    toNat_shift_lowMask lba (24 - 8 * k) 8 (by norm_num)
  unfold lbaByte
  rw [BitVec.toNat_setWidth, hbits]
  omega

theorem packetLba_readCmd (lba : BitVec 32) : packetLba (readCmd lba) = lba := by
  have hlt := lba.isLt
  have hlow : ∀ x y : BitVec 8, (x ++ y : BitVec 16).setWidth 8 = y := setWidth_append_low
  have hhigh : ∀ x y : BitVec 8, ((x ++ y : BitVec 16) >>> 8).setWidth 8 = x :=
    setWidth_append_high
  apply BitVec.eq_of_toNat_eq
  unfold packetLba readCmd
  simp only [hlow, hhigh, toNat_append_eq, lbaByte_toNat]
  omega

theorem registerPair_split (x : BitVec 16) :
    registerPair ((x >>> 8).setWidth 8) (x.setWidth 8) = x := by
  have h := x.isLt
  apply BitVec.eq_of_toNat_eq
  rw [registerPair_eq, toNat_append_eq, BitVec.toNat_setWidth, BitVec.toNat_setWidth,
    BitVec.toNat_ushiftRight, Nat.shiftRight_eq_div_pow]
  omega

theorem drive_insw (disk : Disk) (bad : BitVec 32 → Bool) (io_port port : BitVec 16) (n : ℕ)
    (s : Drive) : (drive disk bad io_port).insw port n s =
      ((List.range n).map (fun i =>
        disk (packetLba s.packet) (2 * i + 1) ++ disk (packetLba s.packet) (2 * i)),
        { s with drq := false }) := rfl

section answers

variable (disk : Disk) (bad : BitVec 32 → Bool) (io_port : BitVec 16)

theorem drive_status (s : Drive) : (drive disk bad io_port).inb (io_port + 0x07) s =
    (if s.drq then 0x48 else 0x40, s) := by
  simp [drive, Drive.register]

theorem drive_high (s : Drive) : (drive disk bad io_port).inb (io_port + 0x05) s =
    ((s.count >>> 8).setWidth 8, s) := by
  simp [drive, Drive.register]

theorem drive_low (s : Drive) : (drive disk bad io_port).inb (io_port + 0x04) s =
    (s.count.setWidth 8, s) := by
  simp [drive, Drive.register]

theorem drive_poll {busy : BitVec 8 → Bool} {s : Drive} {sts : BitVec 8}
    (hs : sts = if s.drq then 0x48 else 0x40) (h : busy sts = false) (fuel : ℕ) :
    (drive disk bad io_port).poll fuel (io_port + 0x07) busy s = some (sts, s) := by
  rw [Device.poll_of_not_busy (by rw [drive_status, ← hs]; exact h), drive_status, hs]

end answers

theorem drive_startPacket (disk : Disk) (bad : BitVec 32 → Bool) (cd : Cdrom) (s : Drive) :
    (startPacket (drive disk bad cd.io_port) cd s).drq = true := by
  simp [startPacket, drive]

/-- The driver against the drive delivers the sector, or nothing when it is bad. -/
theorem cdromReadSector_drive (disk : Disk) (bad : BitVec 32 → Bool) (fuel : ℕ) (cd : Cdrom)
    (lba : BitVec 32) (s : Drive) :
    ∃ s', cdromReadSector (drive disk bad cd.io_port) (fuel + 1) cd lba s =
      some (if bad lba then { rd_size := 0, words := [] } else fullReply (disk lba), s') := by
  have hp := packetLba_readCmd lba
  have hdrq := drive_startPacket disk bad cd s
  have hirq : ∀ s, (drive disk bad cd.io_port).awaitFlag (fuel + 1) s = some (0x02, s) := by
    intro s
    exact Device.awaitFlag_of_irq (by simp [drive]) fuel
  unfold cdromReadSector
  generalize startPacket (drive disk bad cd.io_port) cd s = s₁ at hdrq
  have h₁ : (drive disk bad cd.io_port).poll (fuel + 1) (cd.io_port + 0x07)
      (fun sts => sts &&& 0x80 != 0) s₁ = some (0x48, s₁) :=
    drive_poll disk bad cd.io_port (by rw [hdrq]; rfl) (by decide) _
  have h₂ : (drive disk bad cd.io_port).poll (fuel + 1) (cd.io_port + 0x07)
      (fun sts => sts &&& 0x8 == 0 && sts &&& 0x1 == 0) s₁ = some (0x48, s₁) :=
    drive_poll disk bad cd.io_port (by rw [hdrq]; rfl) (by decide) _
  have h₃ : ∀ s : Drive, s.drq = false → (drive disk bad cd.io_port).poll (fuel + 1)
      (cd.io_port + 0x07) (fun sts => sts &&& 0x88 != 0) s = some (0x40, s) :=
    fun s hs => drive_poll disk bad cd.io_port (by rw [hs]; rfl) (by decide) _
  simp only [Option.bind_eq_bind, Option.pure_def, h₁, h₂, Option.bind_some, hirq, drive_high,
    drive_low, registerPair_split]
  rw [if_neg (by decide)]
  cases hb : bad lba with
  | true =>
      have hs : (drive disk bad cd.io_port).outsw cd.io_port (readCmd lba) s₁ =
          { drq := false, count := 0, packet := readCmd lba } := by simp [drive, hp, hb]
      refine ⟨{ drq := false, count := 0, packet := readCmd lba }, ?_⟩
      rw [hs, drive_insw, h₃ _ rfl]
      simp
  | false =>
      have hs : (drive disk bad cd.io_port).outsw cd.io_port (readCmd lba) s₁ =
          { drq := true, count := 2048, packet := readCmd lba } := by simp [drive, hp, hb]
      refine ⟨{ drq := false, count := 2048, packet := readCmd lba }, ?_⟩
      rw [hs, drive_insw, h₃ _ rfl, hp]
      simp [fullReply, sectorWords]

end Ziemniak.Stage2
