import Ziemniak.BareMetal.RealMode
import Ziemniak.BareMetal.Struct
import Ziemniak.Stage2.Cdrom

/-! # Identifying the boot drive

`id_drive` of `stub.asm` asks the BIOS for the device parameter table of the boot drive and keeps
its ports and its slave bit in `rm_data`; the driver selects the drive by them.

The table is read through `ds`, and the last store, of the slave bit, goes through `ds` as well:
it reaches `rm_data` from segment 0 alone (`idDrive_faithful_iff`). -/

namespace Ziemniak.Stage2

open BareMetal BareMetal.RealMode

/-! ### `rm_data` -/

inductive RealModeMember
  | framebuf_ptr | font_ptr | red_pos | green_pos | blue_pos | rsrvd_pos | memmap_seg
  | memmap_size | scr_width | scr_height | boot_disk | is_boot_disk_slv | boot_disk_io
  | boot_disk_ctl
deriving DecidableEq, Repr

/-- The block of `stub.asm`. -/
def rmDataBlock : List (RealModeMember × Directive) :=
  [(.framebuf_ptr, .dd), (.font_ptr, .dd), (.red_pos, .db), (.green_pos, .db), (.blue_pos, .db),
    (.rsrvd_pos, .db), (.memmap_seg, .dw), (.memmap_size, .dw), (.scr_width, .dw),
    (.scr_height, .dw), (.boot_disk, .db), (.is_boot_disk_slv, .db), (.boot_disk_io, .dw),
    (.boot_disk_ctl, .dw)]

/-- `struct real_mode_data` -/
def realModeDataStruct : Struct RealModeMember :=
  [(.framebuf_ptr, .uint32), (.font_ptr, .uint32), (.red_pos, .uint8), (.green_pos, .uint8),
    (.blue_pos, .uint8), (.rsrvd_pos, .uint8), (.memmap_seg, .uint16), (.memmap_size, .uint16),
    (.scr_width, .uint16), (.scr_height, .uint16), (.boot_disk, .uint8),
    (.is_boot_disk_slv, .uint8), (.boot_disk_io, .uint16), (.boot_disk_ctl, .uint16)]

def realModeValue (v : RealModeData) : RealModeMember → ℕ
  | .framebuf_ptr => v.framebuf_ptr.toNat
  | .font_ptr => v.font_ptr.toNat
  | .red_pos => v.red_pos.toNat
  | .green_pos => v.green_pos.toNat
  | .blue_pos => v.blue_pos.toNat
  | .rsrvd_pos => v.rsrvd_pos.toNat
  | .memmap_seg => v.memmap_seg.toNat
  | .memmap_size => v.memmap_size.toNat
  | .scr_width => v.scr_width.toNat
  | .scr_height => v.scr_height.toNat
  | .boot_disk => v.boot_disk.toNat
  | .is_boot_disk_slv => v.is_boot_disk_slv.toNat
  | .boot_disk_io => v.boot_disk_io.toNat
  | .boot_disk_ctl => v.boot_disk_ctl.toNat

/-! ### `id_drive` -/

def rm_data : ℕ := 0x2008
def edd_buf : BitVec 16 := 0x2028
def EDD_BUF_SIZE : BitVec 16 := 0x1E
def EDD_SLV_BM : BitVec 8 := 0x10

/-- The offset of the label `f` of `rm_data`. -/
def rmdLabel (f : RealModeMember) : BitVec 16 :=
  match (blockFrom 0 rmDataBlock).find? (fun p => p.member = f) with
  | some p => BitVec.ofNat 16 (rm_data + p.offset)
  | none => 0

/-- What `int 0x13` returns: the carry flag, `ah` and the bytes of the EDD buffer. -/
structure EddReturn where
  carry : Bool
  ah : BitVec 8
  buffer : ℕ → BitVec 8

/-- The far pointer to the device parameter table. -/
def EddReturn.off (r : EddReturn) : BitVec 16 := r.buffer 0x1B ++ r.buffer 0x1A
def EddReturn.seg (r : EddReturn) : BitVec 16 := r.buffer 0x1D ++ r.buffer 0x1C

def int13 (m : Mem) (r : EddReturn) : Mem := fun x =>
  if edd_buf.toNat ≤ x ∧ x < edd_buf.toNat + EDD_BUF_SIZE.toNat then r.buffer (x - edd_buf.toNat)
  else m x

/-- From the call to the jump to `check_cpuid`; `none` is the jump to `.id_drive_fail`. -/
def idDrive (a20 : Bool) (r : EddReturn) (m : Mem) : Option Mem :=
  let es : BitVec 16 := 0
  let m := store16 a20 m 0 edd_buf EDD_BUF_SIZE
  let m := int13 m r
  if r.carry then none
  else if r.ah ≠ 0x00 then none
  else if load16 a20 m 0 edd_buf ≠ EDD_BUF_SIZE then none
  else
    let si := load16 a20 m 0 (edd_buf + 0x1A)
    let ds := load16 a20 m 0 (edd_buf + 0x1C)
    let m' := store16 a20 m es (rmdLabel .boot_disk_io) (load16 a20 m ds si)
    let m'' := store16 a20 m' es (rmdLabel .boot_disk_ctl) (load16 a20 m' ds (si + 2))
    let al := load8 a20 m'' ds (si + 4) &&& EDD_SLV_BM
    some (store8 a20 m'' ds (rmdLabel .is_boot_disk_slv) al)

/-! ### What the driver writes -/

section writes

variable {δ : Type} {dev : Device δ} {fuel : ℕ} {d d' : δ × List PortEvent}

theorem writes_delay (ctl_port : BitVec 16) :
    Device.writes (delay dev.traced ctl_port d) = Device.writes d := by
  unfold delay
  simp only [Device.writes_inb]

theorem cdromSoftReset_writes {cd : Cdrom} (h : cdromSoftReset dev.traced fuel cd d = some d') :
    Device.writes d' = Device.writes d ++ [(cd.ctl_port, 0x04), (cd.ctl_port, 0x00)] := by
  unfold cdromSoftReset at h
  obtain ⟨r, hpoll, hr⟩ := Option.bind_eq_some_iff.mp h
  obtain rfl := Option.some.inj hr
  rw [Device.writes_poll hpoll, writes_delay, Device.writes_outb, Device.writes_outb,
    List.append_assoc]
  rfl

/-- `cdrom_init` resets through the control port and selects the drive. -/
theorem cdromInit_writes {disk_io disk_ctl : BitVec 16} {is_slv : BitVec 8} {ret : ℤ} {cd : Cdrom}
    (h : cdromInit dev.traced fuel disk_io disk_ctl is_slv d = some (ret, cd, d')) :
    cd = { io_port := disk_io, ctl_port := disk_ctl, is_slave := if is_slv ≠ 0 then 1 else 0 } ∧
      Device.writes d' = Device.writes d ++ ([(disk_ctl, 0x04), (disk_ctl, 0x00),
        (disk_io + 0x06, 0xA0 ||| (cd.is_slave <<< 4))] : List (BitVec 16 × BitVec 8)) := by
  obtain ⟨s, hs⟩ : ∃ s : BitVec 8, s = if is_slv ≠ 0 then 1 else 0 := ⟨_, rfl⟩
  unfold cdromInit at h
  rw [← hs] at h ⊢
  obtain ⟨e, hreset, h⟩ := Option.bind_eq_some_iff.mp h
  have hw := cdromSoftReset_writes hreset
  have hend : cd = { io_port := disk_io, ctl_port := disk_ctl, is_slave := s } ∧
      d' = (dev.traced.inb (disk_io + 0x05) (dev.traced.inb (disk_io + 0x04)
        (delay dev.traced disk_ctl (dev.traced.outb (disk_io + 0x06)
          (0xA0 ||| (s <<< 4)) e))).2).2 := by
    simp only at h
    split_ifs at h with hsig
    · cases h
      exact ⟨rfl, rfl⟩
    · cases h
      exact ⟨rfl, rfl⟩
  obtain ⟨rfl, rfl⟩ := hend
  refine ⟨rfl, ?_⟩
  rw [Device.writes_inb, Device.writes_inb, writes_delay, Device.writes_outb, hw,
    List.append_assoc]
  rfl

theorem startPacket_writes (cd : Cdrom) : Device.writes (startPacket dev.traced cd d) =
    Device.writes d ++ ([(cd.io_port + 0x06, cd.is_slave <<< 4), (cd.io_port + 0x01, 0x00),
      (cd.io_port + 0x04, 0x00), (cd.io_port + 0x05, 0x08), (cd.io_port + 0x07, 0xA0)] :
        List (BitVec 16 × BitVec 8)) := by
  unfold startPacket
  simp only [Device.writes_outb, writes_delay, Device.writes_clearFlag, List.append_assoc]
  rfl

theorem cdromReadSector_writes {cd : Cdrom} {lba : BitVec 32} {r : Reply}
    (h : cdromReadSector dev.traced fuel cd lba d = some (r, d')) :
    Device.writes d' = Device.writes (startPacket dev.traced cd d) := by
  unfold cdromReadSector at h
  obtain ⟨e, hbusy, h⟩ := Option.bind_eq_some_iff.mp h
  obtain ⟨e', hdrq, h⟩ := Option.bind_eq_some_iff.mp h
  have hw := (Device.writes_poll hdrq).trans (Device.writes_poll hbusy)
  simp only at h
  split_ifs at h with herr
  · cases h
    exact hw
  · obtain ⟨e₂, hirq, h⟩ := Option.bind_eq_some_iff.mp h
    obtain ⟨e₃, hend, h⟩ := Option.bind_eq_some_iff.mp h
    cases h
    rw [Device.writes_poll hend, Device.writes_insw, Device.writes_inb, Device.writes_inb,
      Device.writes_awaitFlag hirq, Device.writes_outsw]
    exact hw

end writes

/-! ### What `id_drive` leaves -/

theorem rmdLabel_io : rmdLabel .boot_disk_io = 0x201E := rfl
theorem rmdLabel_ctl : rmdLabel .boot_disk_ctl = 0x2020 := rfl
theorem rmdLabel_slv : rmdLabel .is_boot_disk_slv = 0x201D := rfl

/-- The bytes of `rm_data` and of the EDD buffer. -/
def rmDataBytes : Set ℕ := Set.Ico 0x2008 0x2022
def driveData : Set ℕ := rmDataBytes ∪ Set.Ico 0x2028 0x2046

/-- The five bytes of the table lie outside `rm_data`. -/
def TableOutside (a20 : Bool) (r : EddReturn) : Prop :=
  ∀ i < 5, linear a20 r.seg (r.off + BitVec.ofNat 16 i) ∉ rmDataBytes

/-- The ports and the slave bit of the table, as the BIOS returned it. -/
def tableIo (a20 : Bool) (r : EddReturn) (m : Mem) : BitVec 16 :=
  load16 a20 (int13 m r) r.seg r.off
def tableCtl (a20 : Bool) (r : EddReturn) (m : Mem) : BitVec 16 :=
  load16 a20 (int13 m r) r.seg (r.off + 2)
def tableSlv (a20 : Bool) (r : EddReturn) (m : Mem) : BitVec 8 :=
  load8 a20 (int13 m r) r.seg (r.off + 4) &&& EDD_SLV_BM

/-- The buffer hides the size that was stored in it before the call. -/
theorem int13_store16 (a20 : Bool) (m : Mem) (r : EddReturn) :
    int13 (store16 a20 m 0 edd_buf EDD_BUF_SIZE) r = int13 m r := by
  funext x
  have hbuf : edd_buf.toNat = 0x2028 := rfl
  have hsize : EDD_BUF_SIZE.toNat = 0x1E := rfl
  unfold int13
  rw [hbuf, hsize]
  by_cases hx : 0x2028 ≤ x ∧ x < 0x2028 + 0x1E
  · rw [if_pos hx, if_pos hx]
  · rw [if_neg hx, if_neg hx, store16_of_ne (by decide) (by rw [hbuf]; omega)]

theorem load16_off (a20 : Bool) (m : Mem) (r : EddReturn) :
    load16 a20 (int13 m r) 0 (edd_buf + 0x1A) = r.off := by
  unfold load16 load8
  rw [linear_zero, linear_zero]
  rfl

theorem load16_seg (a20 : Bool) (m : Mem) (r : EddReturn) :
    load16 a20 (int13 m r) 0 (edd_buf + 0x1C) = r.seg := by
  unfold load16 load8
  rw [linear_zero, linear_zero]
  rfl

theorem store16_table {a20 : Bool} {r : EddReturn} (hout : TableOutside a20 r) (m : Mem)
    {off : BitVec 16} (v : BitVec 16) (hoff : 0x2008 ≤ off.toNat ∧ off.toNat + 2 ≤ 0x2022)
    (i : ℕ) (hi : i < 5) :
    store16 a20 m 0 off v (linear a20 r.seg (r.off + BitVec.ofNat 16 i)) =
      m (linear a20 r.seg (r.off + BitVec.ofNat 16 i)) := by
  apply store16_of_ne (by omega)
  by_contra hx
  exact hout i hi ⟨by omega, by omega⟩

/-- **The stores** of `id_drive`: the two ports into `rm_data`, and the slave bit through `ds`. -/
theorem idDrive_eq {a20 : Bool} {r : EddReturn} {m m' : Mem} (hout : TableOutside a20 r)
    (h : idDrive a20 r m = some m') :
    m' = store8 a20 (store16 a20 (store16 a20 (int13 m r) 0 0x201E (tableIo a20 r m)) 0 0x2020
      (tableCtl a20 r m)) r.seg 0x201D (tableSlv a20 r m) := by
  unfold idDrive at h
  simp only [int13_store16, load16_off, load16_seg, rmdLabel_io, rmdLabel_ctl, rmdLabel_slv] at h
  have hctl : ∀ v, load16 a20 (store16 a20 (int13 m r) 0 0x201E v) r.seg (r.off + 2) =
      tableCtl a20 r m := by
    intro v
    have h3 : r.off + 2 + 1 = r.off + BitVec.ofNat 16 3 := BitVec.add_assoc r.off 2 1
    apply load16_congr
    · exact store16_table hout _ v (by decide) 2 (by decide)
    · rw [h3]
      exact store16_table hout _ v (by decide) 3 (by decide)
  have hslv : ∀ v w, load8 a20 (store16 a20 (store16 a20 (int13 m r) 0 0x201E v) 0 0x2020 w)
      r.seg (r.off + 4) &&& EDD_SLV_BM = tableSlv a20 r m := by
    intro v w
    have hrange : 0x2008 ≤ (0x2020 : BitVec 16).toNat ∧ (0x2020 : BitVec 16).toNat + 2 ≤ 0x2022 :=
      by decide
    have h4 := store16_table hout (store16 a20 (int13 m r) 0 0x201E v) w hrange 4 (by decide)
    exact congrArg (· &&& EDD_SLV_BM)
      (h4.trans (store16_table hout (int13 m r) v (by decide) 4 (by decide)))
  split_ifs at h with hcarry hah hsize
  rw [hctl, hslv] at h
  exact (Option.some.inj h).symm

/-- The address of the last store. -/
def slvAddr (a20 : Bool) (r : EddReturn) : ℕ := linear a20 r.seg 0x201D

theorem slvAddr_mod (a20 : Bool) (r : EddReturn) : slvAddr a20 r % 16 = 13 :=
  linear_mod a20 r.seg _

theorem int13_of_not_mem {m : Mem} {r : EddReturn} {x : ℕ} (hx : x ∉ Set.Ico 0x2028 0x2046) :
    int13 m r x = m x := if_neg hx

section stores

variable {a20 : Bool} {r : EddReturn} {m m' : Mem}

theorem idDrive_apply (hout : TableOutside a20 r) (h : idDrive a20 r m = some m') {x : ℕ}
    (hx : x < 0x201E ∨ 0x2022 ≤ x) :
    m' x = if x = slvAddr a20 r then tableSlv a20 r m else int13 m r x := by
  have hctl : (0x2020 : BitVec 16).toNat = 0x2020 := rfl
  have hio : (0x201E : BitVec 16).toNat = 0x201E := rfl
  rw [idDrive_eq hout h]
  by_cases hA : x = slvAddr a20 r
  · rw [if_pos hA, hA]
    exact store8_same a20 _ r.seg _ _
  · rw [if_neg hA, store8_ne hA, store16_of_ne (by decide) (by rw [hctl]; omega),
      store16_of_ne (by decide) (by rw [hio]; omega)]

theorem idDrive_io (hout : TableOutside a20 r) (h : idDrive a20 r m = some m') :
    load16 a20 m' 0 (rmdLabel .boot_disk_io) = tableIo a20 r m := by
  have hmod := slvAddr_mod a20 r
  have hctl : (0x2020 : BitVec 16).toNat = 0x2020 := rfl
  have hfar : ∀ x, x = 0x201E ∨ x = 0x201F → m' x =
      store16 a20 (int13 m r) 0 0x201E (tableIo a20 r m) x := by
    intro x hx
    have hne : x ≠ slvAddr a20 r := by omega
    rw [idDrive_eq hout h, store8_ne hne, store16_of_ne (by decide) (by rw [hctl]; omega)]
  have hsame : load16 a20 (store16 a20 (int13 m r) 0 0x201E (tableIo a20 r m)) 0 0x201E =
      tableIo a20 r m := load16_store16 a20 _ _ (by decide)
  rw [rmdLabel_io, ← hsame]
  apply load16_congr
  · exact hfar _ (Or.inl (linear_zero a20 0x201E))
  · exact hfar _ (Or.inr (linear_zero a20 0x201F))

theorem idDrive_ctl (hout : TableOutside a20 r) (h : idDrive a20 r m = some m') :
    load16 a20 m' 0 (rmdLabel .boot_disk_ctl) = tableCtl a20 r m := by
  have hmod := slvAddr_mod a20 r
  have hfar : ∀ x, x = 0x2020 ∨ x = 0x2021 → m' x =
      store16 a20 (store16 a20 (int13 m r) 0 0x201E (tableIo a20 r m)) 0 0x2020
        (tableCtl a20 r m) x := by
    intro x hx
    have hne : x ≠ slvAddr a20 r := by omega
    rw [idDrive_eq hout h, store8_ne hne]
  have hsame : load16 a20 (store16 a20 (store16 a20 (int13 m r) 0 0x201E (tableIo a20 r m)) 0
      0x2020 (tableCtl a20 r m)) 0 0x2020 = tableCtl a20 r m :=
    load16_store16 a20 _ _ (by decide)
  rw [rmdLabel_ctl, ← hsame]
  apply load16_congr
  · exact hfar _ (Or.inl (linear_zero a20 0x2020))
  · exact hfar _ (Or.inr (linear_zero a20 0x2021))

/-- The slave byte is stored from segment 0 alone. -/
theorem idDrive_slv (hout : TableOutside a20 r) (h : idDrive a20 r m = some m') :
    load8 a20 m' 0 (rmdLabel .is_boot_disk_slv) =
      if r.seg = 0 then tableSlv a20 r m else m 0x201D := by
  have hiff : slvAddr a20 r = 0x201D ↔ r.seg = 0 := linear_eq_offset
  have hload : load8 a20 m' 0 (rmdLabel .is_boot_disk_slv) = m' 0x201D := by
    unfold load8
    rw [linear_zero]
    rfl
  have hint : int13 m r 0x201D = m 0x201D := int13_of_not_mem (by decide)
  rw [hload, idDrive_apply hout h (by decide), hint]
  exact if_congr (eq_comm.trans hiff) rfl rfl

theorem idDrive_frame (hout : TableOutside a20 r) (h : idDrive a20 r m = some m') :
    Set.EqOn m' m driveDataᶜ ↔
      slvAddr a20 r ∈ driveData ∨ m (slvAddr a20 r) = tableSlv a20 r m := by
  have happly : ∀ x ∉ driveData, m' x = if x = slvAddr a20 r then tableSlv a20 r m else m x := by
    intro x hx
    have hrm : ¬ (0x2008 ≤ x ∧ x < 0x2022) := fun hmem => hx (Or.inl hmem)
    rw [idDrive_apply hout h (by omega), int13_of_not_mem (fun hmem => hx (Or.inr hmem))]
  constructor
  · intro hframe
    by_cases hmem : slvAddr a20 r ∈ driveData
    · exact Or.inl hmem
    · have hx := happly _ hmem
      rw [if_pos rfl, hframe hmem] at hx
      exact Or.inr hx
  · intro hcond x hx
    rw [happly x hx]
    by_cases hA : x = slvAddr a20 r
    · subst hA
      rw [if_pos rfl]
      exact (hcond.resolve_left hx).symm
    · rw [if_neg hA]

end stores

/-! ### The result -/

/-- The bytes that select the drive through `port`: bit 4 is set if and only if it is the slave. -/
def SelectsDrive (slave : Prop) (port : BitVec 16) (ws : List (BitVec 16 × BitVec 8)) : Prop :=
  ∀ v, (port, v) ∈ ws → (v.getLsbD 4 = true ↔ slave)

/-- `rm_data` holds the ports and the slave bit of the table, nothing outside `rm_data` and the
EDD buffer has changed, and the driver that is started with `rm_data` selects the drive of the
table.  When the control port is the drive register itself, the two bytes of the reset go there
as well. -/
structure IdDriveFaithful (a20 : Bool) (r : EddReturn) (m m' : Mem) : Prop where
  io : load16 a20 m' 0 (rmdLabel .boot_disk_io) = tableIo a20 r m
  ctl : load16 a20 m' 0 (rmdLabel .boot_disk_ctl) = tableCtl a20 r m
  slv : load8 a20 m' 0 (rmdLabel .is_boot_disk_slv) = tableSlv a20 r m
  frame : Set.EqOn m' m driveDataᶜ
  select : ∀ (δ : Type) (dev : Device δ) fuel d ret cd d',
    cdromInit dev.traced fuel (load16 a20 m' 0 (rmdLabel .boot_disk_io))
      (load16 a20 m' 0 (rmdLabel .boot_disk_ctl)) (load8 a20 m' 0 (rmdLabel .is_boot_disk_slv))
      (d, []) = some (ret, cd, d') →
    (∀ v, (tableIo a20 r m + 0x06, v) ∈ Device.writes d' →
      (v.getLsbD 4 = true ↔ tableSlv a20 r m ≠ 0) ∨
        tableCtl a20 r m = tableIo a20 r m + 0x06 ∧ (v = 0x04 ∨ v = 0x00)) ∧
    ∀ fuel lba e, SelectsDrive (tableSlv a20 r m ≠ 0) (tableIo a20 r m + 0x06)
        (Device.writes (startPacket dev.traced cd (e, []))) ∧
      ∀ reply e', cdromReadSector dev.traced fuel cd lba (e, []) = some (reply, e') →
        SelectsDrive (tableSlv a20 r m ≠ 0) (tableIo a20 r m + 0x06) (Device.writes e')

theorem select_bits (slv : BitVec 8) :
    ((0xA0 ||| ((if slv ≠ 0 then 1 else 0 : BitVec 8) <<< 4)).getLsbD 4 = true ↔ slv ≠ 0) ∧
      (((if slv ≠ 0 then 1 else 0 : BitVec 8) <<< 4).getLsbD 4 = true ↔ slv ≠ 0) := by
  by_cases h : slv = 0
  · rw [if_neg (not_not.mpr h)]
    exact ⟨iff_of_false (by decide) (not_not.mpr h), iff_of_false (by decide) (not_not.mpr h)⟩
  · rw [if_pos h]
    exact ⟨iff_of_true (by decide) h, iff_of_true (by decide) h⟩

theorem startPacket_selects {δ : Type} {dev : Device δ} {cd : Cdrom} {slv : BitVec 8}
    (hcd : cd.is_slave = if slv ≠ 0 then 1 else 0) (e : δ) :
    SelectsDrive (slv ≠ 0) (cd.io_port + 0x06)
      (Device.writes (startPacket dev.traced cd (e, []))) := by
  intro v hv
  have hne : ∀ b : BitVec 16, 0x06 ≠ b → cd.io_port + 0x06 ≠ cd.io_port + b :=
    fun b hb h => hb (add_left_cancel h)
  rw [startPacket_writes, hcd] at hv
  simp only [Device.writes, List.filterMap_nil, List.nil_append, List.mem_cons, Prod.mk.injEq,
    List.not_mem_nil, or_false, true_and] at hv
  rcases hv with rfl | ⟨h, -⟩ | ⟨h, -⟩ | ⟨h, -⟩ | ⟨h, -⟩
  · exact (select_bits slv).2
  · exact absurd h (hne _ (by decide))
  · exact absurd h (hne _ (by decide))
  · exact absurd h (hne _ (by decide))
  · exact absurd h (hne _ (by decide))

/-- A driver that is started with the right ports and slave byte selects the drive. -/
theorem cdromInit_selects {δ : Type} {dev : Device δ} {fuel : ℕ} {io ctl : BitVec 16}
    {slv : BitVec 8} {d : δ} {ret : ℤ} {cd : Cdrom} {d' : δ × List PortEvent}
    (h : cdromInit dev.traced fuel io ctl slv (d, []) = some (ret, cd, d')) :
    (∀ v, (io + 0x06, v) ∈ Device.writes d' →
      (v.getLsbD 4 = true ↔ slv ≠ 0) ∨ ctl = io + 0x06 ∧ (v = 0x04 ∨ v = 0x00)) ∧
    ∀ fuel lba e, SelectsDrive (slv ≠ 0) (io + 0x06)
        (Device.writes (startPacket dev.traced cd (e, []))) ∧
      ∀ reply e', cdromReadSector dev.traced fuel cd lba (e, []) = some (reply, e') →
        SelectsDrive (slv ≠ 0) (io + 0x06) (Device.writes e') := by
  obtain ⟨rfl, hw⟩ := cdromInit_writes h
  constructor
  · intro v hv
    rw [hw] at hv
    simp only [Device.writes, List.filterMap_nil, List.nil_append, List.mem_cons, Prod.mk.injEq,
      List.not_mem_nil, or_false, true_and] at hv
    rcases hv with ⟨hport, hv⟩ | ⟨hport, hv⟩ | rfl
    · exact Or.inr ⟨hport.symm, Or.inl hv⟩
    · exact Or.inr ⟨hport.symm, Or.inr hv⟩
    · exact Or.inl (select_bits slv).1
  · intro fuel lba e
    refine ⟨startPacket_selects rfl e, ?_⟩
    intro reply e' he
    rw [cdromReadSector_writes he]
    exact startPacket_selects rfl e

/-- **The boot drive** is identified exactly when the table is in segment 0, or the drive is the
master and the byte that the last store reaches is the loader's own or zero already. -/
theorem idDrive_faithful_iff {a20 : Bool} {r : EddReturn} {m m' : Mem} (hslv : m 0x201D = 0)
    (hout : TableOutside a20 r) (h : idDrive a20 r m = some m') :
    IdDriveFaithful a20 r m m' ↔ r.seg = 0 ∨
      tableSlv a20 r m = 0 ∧ (slvAddr a20 r ∈ driveData ∨ m (slvAddr a20 r) = 0) := by
  have hfield := idDrive_slv hout h
  have hframe := idDrive_frame hout h
  rw [hslv] at hfield
  constructor
  · intro hf
    by_cases hseg : r.seg = 0
    · exact Or.inl hseg
    · rw [hf.slv, if_neg hseg] at hfield
      have hcond := hframe.mp hf.frame
      rw [hfield] at hcond
      exact Or.inr ⟨hfield, hcond⟩
  · intro hcond
    have hslv' : load8 a20 m' 0 (rmdLabel .is_boot_disk_slv) = tableSlv a20 r m := by
      rw [hfield]
      cases hcond with
      | inl hseg => rw [if_pos hseg]
      | inr hmaster => rw [hmaster.1, ite_self]
    have hframe' : Set.EqOn m' m driveDataᶜ := by
      apply hframe.mpr
      cases hcond with
      | inl hseg =>
          have haddr : slvAddr a20 r = 0x201D := linear_eq_offset.mpr hseg
          rw [haddr]
          exact Or.inl (Or.inl ⟨by decide, by decide⟩)
      | inr hmaster =>
          rw [hmaster.1]
          exact hmaster.2
    refine ⟨idDrive_io hout h, idDrive_ctl hout h, hslv', hframe', ?_⟩
    intro δ dev fuel d ret cd d' hinit
    rw [idDrive_io hout h, idDrive_ctl hout h, hslv'] at hinit
    exact cdromInit_selects hinit

/-- A BIOS that keeps its tables at the top of the low memory. -/
def eddAnswer : EddReturn where
  carry := false
  ah := 0
  buffer i := if i = 0 then 0x1E else if i = 0x1B then 0x01 else if i = 0x1C then 0xC0 else
    if i = 0x1D then 0x9F else 0

/-- Its table for the first channel. -/
def tableMem (flags : BitVec 8) : Mem := fun x =>
  if x = 0x9FD00 then 0xF0 else if x = 0x9FD01 then 0x01 else if x = 0x9FD02 then 0xF6 else
    if x = 0x9FD03 then 0x03 else if x = 0x9FD04 then flags else 0

theorem eddAnswer_outside (a20 : Bool) : TableOutside a20 eddAnswer := by
  intro i hi hmem
  have hlin : ∀ i < 5, 0x9FD00 ≤ linear a20 eddAnswer.seg (eddAnswer.off + BitVec.ofNat 16 i) := by
    cases a20 <;> decide
  have := hlin i hi
  have := hmem.2
  omega

theorem idDrive_faithful_iff_master : ∃ m', idDrive true eddAnswer (tableMem 0xE0) = some m' ∧
    IdDriveFaithful true eddAnswer (tableMem 0xE0) m' :=
  ⟨_, rfl, (idDrive_faithful_iff rfl (eddAnswer_outside true) rfl).mpr
    (Or.inr ⟨by decide, Or.inr (by decide)⟩)⟩

/-- The slave: its bit goes to the segment of the table, and `rm_data` says master. -/
theorem idDrive_slave : tableMem 0xF0 0x201D = 0 ∧ TableOutside true eddAnswer ∧
    ∃ m', idDrive true eddAnswer (tableMem 0xF0) = some m' ∧ m' 0x201D = 0 ∧ m' 0xA1C1D = 0x10 ∧
      ¬ IdDriveFaithful true eddAnswer (tableMem 0xF0) m' := by
  refine ⟨rfl, eddAnswer_outside true, _, rfl, by decide, by decide, ?_⟩
  intro hf
  exact absurd hf.slv (by decide)

end Ziemniak.Stage2
