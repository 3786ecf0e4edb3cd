import Ziemniak.Stage2.DiskImage

/-! # The scan for the volume descriptor

`cdrom_search` looks for the descriptor with `while (buff[0] != PVD_SIGNATURE)`: it tests the
buffer before the first read, does not look for the set terminator, and counts on through all
LBAs when nothing starts with the signature.

`descriptorScan_iff` says for which images the scan ends, and reports "not found" where the
descriptors end without a primary one.  `sameResults_iff` says when two calls with different
buffers agree. -/

namespace Ziemniak.Stage2

open BareMetal

theorem cdromReadSector_fuelMono {δ : Type} (dev : Device δ) (cd : Cdrom) :
    FuelMono (fun fuel => cdromReadSector dev fuel cd) :=
  fun _ _ hnk _ _ _ h => cdromReadSector_mono hnk h

/-! ### Images without a descriptor -/

def SET_TERMINATOR : BitVec 8 := 0xFF

/-- The descriptors from LBA 16 on come to the terminator, none of them the primary one. -/
def ReachesTerminator (image : Image) : Prop :=
  ∃ k, PVD_START.toNat + k < 2 ^ 32 ∧
    (∃ s, image (PVD_START + BitVec.ofNat 32 k) = some s ∧ s 0 = SET_TERMINATOR) ∧
    ∀ j < k, ∃ s, image (PVD_START + BitVec.ofNat 32 j) = some s ∧ s 0 ≠ PVD_SIGNATURE

/-- The scan ends, and a set of descriptors without a primary one is "not found". -/
def DescriptorScanRight {δ : Type} (read : ℕ → Reader δ) (image : Image) (fname : List (BitVec 8))
    (fsize : BitVec 32) (buf : Buf) (d : δ) : Prop :=
  (∃ n k b d', ∀ fuel, n ≤ fuel → findDescriptor (read fuel) fuel buf d = some (k, b, d')) ∧
    (ReachesTerminator image → Returns read fname fsize buf d (0, 0))

section scan

variable {δ : Type} {read : ℕ → Reader δ} {image : Image} {Good : δ → Prop}

theorem findDescriptor_ends_iff (hread : ServesImage read image Good) (hmono : FuelMono read)
    {buf : Buf} {d : δ} (hd : Good d) :
    (∃ n k b d', ∀ fuel, n ≤ fuel → findDescriptor (read fuel) fuel buf d = some (k, b, d')) ↔
      ∃ b, DescriptorBuf image buf b := by
  constructor
  · rintro ⟨n, k, b, d', h⟩
    obtain ⟨⟨⟩, hn, -⟩ := ((hread.follows hmono n).descriptor (h n le_rfl) trivial).2 () hd
    exact ⟨b, descriptorBuf_iff.mp ⟨n, k, hn⟩⟩
  · rintro ⟨b, hb⟩
    obtain ⟨n, k, h⟩ := descriptorBuf_iff.mpr hb
    obtain ⟨d', -, m, hm⟩ := findDescriptor_ofImage hread hd h
    exact ⟨m, k, b, d', hm⟩

theorem dirAnswer_zero {fname : List (BitVec 8)} {lba : BitVec 32} {n : ℕ} {b : Buf} :
    DirAnswer image fname lba n b (0, 0) ↔
      ∀ j < n, SectorPassed fname (heldBuf image lba b (j + 1)) := by
  constructor
  · rintro (⟨i, -, -, -, hne⟩ | ⟨hp, -⟩)
    · exact absurd rfl hne
    · exact hp
  · intro hp
    exact Or.inr ⟨hp, rfl⟩

end scan

/-- **The descriptor scan.**  For a device that serves an image it ends, and a set of descriptors
without a primary one is reported as "not found", exactly when some buffer is taken for the
descriptor and, where the terminator comes first, no sector of the directory which that buffer
names holds a location for the file. -/
theorem descriptorScan_iff {δ : Type} {dev : Device δ} {cd : Cdrom} {image : Image}
    {Good : δ → Prop} (hread : ServesImage (fun fuel => cdromReadSector dev fuel cd) image Good)
    (fname : List (BitVec 8)) (fsize : BitVec 32) (buf : Buf) {d : δ} (hd : Good d) :
    DescriptorScanRight (fun fuel => cdromReadSector dev fuel cd) image fname fsize buf d ↔
      ∃ b, DescriptorBuf image buf b ∧ (ReachesTerminator image →
        ∀ j < (dirSectors b).toNat, SectorPassed fname (heldBuf image (dirLba b) b (j + 1))) := by
  have hmono := cdromReadSector_fuelMono dev cd
  unfold DescriptorScanRight
  rw [findDescriptor_ends_iff hread hmono hd, returns_iff hread hmono hd]
  simp only [dirAnswer_zero]
  constructor
  · rintro ⟨⟨b, hb⟩, hterm⟩
    by_cases ht : ReachesTerminator image
    · obtain ⟨b', hb', hp⟩ := hterm ht
      exact ⟨b', hb', fun _ => hp⟩
    · exact ⟨b, hb, fun h => absurd h ht⟩
  · rintro ⟨b, hb, hp⟩
    exact ⟨⟨b, hb⟩, fun ht => ⟨b, hb, hp ht⟩⟩

theorem drive_servesImage (disk : Disk) (n : ℕ) (cd : Cdrom) :
    ServesImage (fun fuel => cdromReadSector
      (drive disk (fun lba => decide (n ≤ lba.toNat)) cd.io_port) fuel cd) (imageUpTo disk n)
      (fun _ => True) := by
  intro lba s _
  obtain ⟨s', hs'⟩ := cdromReadSector_drive disk (fun lba => decide (n ≤ lba.toNat)) 0 cd lba s
  have hreply : (if decide (n ≤ lba.toNat) then { rd_size := 0, words := [] }
      else fullReply (disk lba)) = imageReply (imageUpTo disk n) lba := by
    rw [imageReply, imageUpTo]
    by_cases hlt : lba.toNat < n
    · rw [if_pos hlt, if_neg (by simpa using hlt)]
    · rw [if_neg hlt, if_pos (by simpa using hlt)]
  rw [hreply] at hs'
  exact ⟨s', trivial, 1, fun fuel hfuel => cdromReadSector_mono hfuel hs'⟩

theorem descriptorScan_iff_potato : DescriptorScanRight (fun fuel => cdromReadSector
      (drive potatoDisk (fun lba => decide (40 ≤ lba.toNat)) 0x170) fuel plainCdrom)
    (imageUpTo potatoDisk 40) kernel_name 0 (fun _ => 0) idleDrive := by
  refine (descriptorScan_iff (drive_servesImage potatoDisk 40 plainCdrom) kernel_name 0
    (fun _ => 0) trivial).mpr ⟨_, Or.inr ⟨by decide, 0, potatoDisk 16,
      ⟨rfl, by decide, fun j hj => absurd hj (Nat.not_lt_zero j)⟩, rfl⟩, ?_⟩
  rintro ⟨k, -, ⟨s, hs, hterm⟩, hbefore⟩
  cases k with
  | zero =>
      obtain rfl : potatoDisk 16 = s := Option.some.inj hs
      exact absurd hterm (by decide)
  | succ k =>
      obtain ⟨s, hs, hne⟩ := hbefore 0 (Nat.succ_pos k)
      obtain rfl : potatoDisk 16 = s := Option.some.inj hs
      exact absurd (by decide) hne

/-- A disk of twenty sectors with nothing but a set terminator on it. -/
def terminatorDisk : Disk := fun lba j => if lba = 16 ∧ j = 0 then 255 else 0

theorem descriptorScan_terminator : ReachesTerminator (imageUpTo terminatorDisk 20) ∧
    ¬ DescriptorScanRight (fun fuel => cdromReadSector
        (drive terminatorDisk (fun lba => decide (20 ≤ lba.toNat)) 0x170) fuel plainCdrom)
      (imageUpTo terminatorDisk 20) kernel_name 0 (fun _ => 0) idleDrive := by
  refine ⟨⟨0, by decide, ⟨_, rfl, by decide⟩, fun j hj => absurd hj (Nat.not_lt_zero j)⟩, ?_⟩
  rintro ⟨hends, -⟩
  have hserves := drive_servesImage terminatorDisk 20 plainCdrom
  obtain ⟨b, ⟨h1, -⟩ | ⟨-, k, s, hsig, -⟩⟩ :=
    (findDescriptor_ends_iff hserves (cdromReadSector_fuelMono _ _) trivial).mp hends
  · exact absurd h1 (by decide)
  · have hread := hsig.read
    have hbyte := hsig.signature
    unfold imageUpTo at hread
    split_ifs at hread with hlt
    obtain rfl := Option.some.inj hread
    unfold terminatorDisk at hbyte
    split_ifs at hbyte with h16
    · exact absurd hbyte (by decide)
    · exact absurd hbyte (by decide)

/-! ### Two calls with different buffers -/

section same

variable {δ : Type} {dev : Device δ} {cd : Cdrom} {disk : Disk} {Good : δ → Prop}

theorem Serves.image {read : ℕ → Reader δ} (hread : Serves read disk Good) :
    ServesImage read (fun lba => some (disk lba)) Good := hread

/-- Where the search of a disk finds the location and the number of sectors of the directory: in
the buffer itself when that starts with the signature. -/
def namedDir (v : Volume disk) (buf : Buf) : BitVec 32 × BitVec 16 :=
  if buf 0 = PVD_SIGNATURE then (dirLba buf, dirSectors buf) else (v.dir_lba, v.dir_sectors)

/-- What such a directory holds for the file, with `buf` for the memory behind its sectors. -/
def DiskAnswer (disk : Disk) (fname : List (BitVec 8)) (buf : Buf) (dir : BitVec 32 × BitVec 16)
    (r : BitVec 32 × BitVec 32) : Prop :=
  DirAnswer (fun lba => some (disk lba)) fname dir.1 dir.2.toNat buf r

/-- Two calls return the same. -/
def SameResults (read : ℕ → Reader δ) (fname : List (BitVec 8)) (fsize₁ fsize₂ : BitVec 32)
    (buf₁ buf₂ : Buf) (d₁ d₂ : δ) : Prop :=
  ∀ r, Returns read fname fsize₁ buf₁ d₁ r ↔ Returns read fname fsize₂ buf₂ d₂ r

/-- Every sector that is read replaces the buffer, so only the memory behind it counts. -/
theorem DiskAnswer.congr {fname : List (BitVec 8)} {buf buf' : Buf}
    (h : ∀ x, CD_SECTOR_SIZE ≤ x → buf x = buf' x) (dir : BitVec 32 × BitVec 16)
    (r : BitVec 32 × BitVec 32) :
    DiskAnswer disk fname buf dir r ↔ DiskAnswer disk fname buf' dir r := by
  have hheld : ∀ j, heldBuf (fun lba => some (disk lba)) dir.1 buf (j + 1) =
      heldBuf (fun lba => some (disk lba)) dir.1 buf' (j + 1) := by
    intro j
    rw [heldBuf_read rfl, heldBuf_read rfl]
    funext x
    rw [fullReply_store, fullReply_store]
    split_ifs with hx
    · rfl
    · exact h x (by unfold CD_SECTOR_SIZE; omega)
  unfold DiskAnswer DirAnswer
  simp only [hheld]

theorem FirstSignature.volume (v : Volume disk) {k : ℕ} {sector : ℕ → BitVec 8}
    (h : FirstSignature (fun lba => some (disk lba)) k sector) : sector = v.descriptor := by
  have hs : disk (PVD_START + BitVec.ofNat 32 k) = sector := Option.some.inj h.read
  have hsig := h.signature
  rw [← hs] at hsig
  rcases Nat.lt_trichotomy k v.lba_off with hlt | rfl | hgt
  · exact absurd hsig (v.first k hlt)
  · exact hs.symm
  · exact absurd v.signature (h.first v.lba_off hgt _ rfl)

theorem returns_iff_named
    (hread : Serves (fun fuel => cdromReadSector dev fuel cd) disk Good) (v : Volume disk)
    (fname : List (BitVec 8)) (fsize : BitVec 32) (buf : Buf) {d : δ} (hd : Good d)
    (r : BitVec 32 × BitVec 32) :
    Returns (fun fuel => cdromReadSector dev fuel cd) fname fsize buf d r ↔
      DiskAnswer disk fname buf (namedDir v buf) r := by
  rw [returns_iff hread.image (cdromReadSector_fuelMono dev cd) hd]
  by_cases h1 : buf 0 = PVD_SIGNATURE
  · rw [namedDir, if_pos h1]
    constructor
    · rintro ⟨b, ⟨-, rfl⟩ | ⟨hne, -⟩, hr⟩
      · exact hr
      · exact absurd h1 hne
    · intro hr
      exact ⟨buf, Or.inl ⟨h1, rfl⟩, hr⟩
  · have hnames : BufNames v ((fullReply v.descriptor).store buf) :=
      bufNames_of_descriptor (fun x hx => by rw [fullReply_store, if_pos hx])
    have hdir : (dirLba ((fullReply v.descriptor).store buf),
        dirSectors ((fullReply v.descriptor).store buf)) = (v.dir_lba, v.dir_sectors) := by
      unfold dirLba dirSectors Volume.dir_sectors
      rw [hnames.1, hnames.2]
    have hbehind : ∀ x, CD_SECTOR_SIZE ≤ x → (fullReply v.descriptor).store buf x = buf x := by
      intro x hx
      rw [fullReply_store, if_neg (by unfold CD_SECTOR_SIZE at hx; omega)]
    rw [namedDir, if_neg h1, ← DiskAnswer.congr hbehind, ← hdir]
    constructor
    · rintro ⟨b, ⟨heq, -⟩ | ⟨-, k, sector, hsig, hb⟩, hr⟩
      · exact absurd heq h1
      · rw [hsig.volume v] at hb
        rw [hb] at hr
        exact hr
    · intro hr
      refine ⟨_, Or.inr ⟨h1, v.lba_off, v.descriptor, ⟨rfl, v.signature, ?_⟩, rfl⟩, hr⟩
      intro j hj s hs
      obtain rfl := Option.some.inj hs
      exact v.first j hj

/-- **Two searches.**  On a disk with a descriptor, all of whose sectors read, two calls with
different buffers agree exactly when the directories that the two buffers lead to hold the same
location and size for the file. -/
theorem sameResults_iff
    (hread : Serves (fun fuel => cdromReadSector dev fuel cd) disk Good) (v : Volume disk)
    (fname : List (BitVec 8)) (fsize₁ fsize₂ : BitVec 32) {buf₁ buf₂ : Buf}
    (hbehind : ∀ x, CD_SECTOR_SIZE ≤ x → buf₁ x = buf₂ x) {d₁ d₂ : δ} (hd₁ : Good d₁)
    (hd₂ : Good d₂) :
    SameResults (fun fuel => cdromReadSector dev fuel cd) fname fsize₁ fsize₂ buf₁ buf₂ d₁ d₂ ↔
      ∀ r, DiskAnswer disk fname buf₁ (namedDir v buf₁) r ↔
        DiskAnswer disk fname buf₁ (namedDir v buf₂) r := by
  unfold SameResults
  simp only [returns_iff_named hread v fname fsize₁ buf₁ hd₁,
    returns_iff_named hread v fname fsize₂ buf₂ hd₂, DiskAnswer.congr hbehind]

/-- Buffers that lead to the same directory; neither starting with the signature is enough. -/
theorem sameResults_of_named
    (hread : Serves (fun fuel => cdromReadSector dev fuel cd) disk Good) (v : Volume disk)
    (fname : List (BitVec 8)) (fsize₁ fsize₂ : BitVec 32) {buf₁ buf₂ : Buf}
    (hbehind : ∀ x, CD_SECTOR_SIZE ≤ x → buf₁ x = buf₂ x)
    (hdir : namedDir v buf₁ = namedDir v buf₂) {d₁ d₂ : δ} (hd₁ : Good d₁) (hd₂ : Good d₂) :
    SameResults (fun fuel => cdromReadSector dev fuel cd) fname fsize₁ fsize₂ buf₁ buf₂ d₁ d₂ := by
  intro r
  rw [returns_iff_named hread v fname fsize₁ buf₁ hd₁,
    returns_iff_named hread v fname fsize₂ buf₂ hd₂, DiskAnswer.congr hbehind, hdir]

end same

theorem sameResults_iff_potato : SameResults
    (fun fuel => cdromReadSector (drive potatoDisk (fun _ => false) 0x170) fuel plainCdrom)
    kernel_name 0 7 (fun _ => 0) (fun x => if x < CD_SECTOR_SIZE then 44 else 0) idleDrive
    idleDrive := by
  refine (sameResults_iff (drive_serves potatoDisk plainCdrom) potatoRoot.toVolume kernel_name 0 7
    ?_ trivial trivial).mpr (fun r => Iff.rfl)
  intro x hx
  rw [if_neg (Nat.not_lt.mpr hx)]

/-- A buffer that happens to start with the signature. -/
def staleBuf : Buf := fun x => if x = 0 then PVD_SIGNATURE else 0

/-- The first call finds the file, the second one nothing. -/
theorem search_stale : (∀ x, CD_SECTOR_SIZE ≤ x → (fun _ => 0 : Buf) x = staleBuf x) ∧
    ¬ SameResults
      (fun fuel => cdromReadSector (drive potatoDisk (fun _ => false) 0x170) fuel plainCdrom)
      kernel_name 0 0 (fun _ => 0) staleBuf idleDrive idleDrive := by
  have hread : Serves (fun fuel => cdromReadSector (drive potatoDisk (fun _ => false) 0x170) fuel
    plainCdrom) potatoDisk (fun _ => True) := drive_serves potatoDisk plainCdrom
  have hmono := cdromReadSector_fuelMono (drive potatoDisk (fun _ => false) 0x170) plainCdrom
  constructor
  · intro x hx
    rw [staleBuf, if_neg (by rintro rfl; exact absurd hx (by decide))]
  · intro hsame
    obtain ⟨b, d', hfound⟩ := cdromSearch_potato
      (imageReader (fun lba => some (potatoDisk lba))) (fun lba _ d => ⟨d, rfl⟩) 0 ()
    have hstale := (hsame (30, 2049)).mp
      ((returns_iff_image hread.image hmono trivial).mpr ⟨1, b, hfound⟩)
    rw [returns_iff_named hread potatoRoot.toVolume _ _ _ trivial] at hstale
    have hnone : (namedDir potatoRoot.toVolume staleBuf).2.toNat = 0 := by decide
    rcases hstale with ⟨i, hi, -⟩ | ⟨-, h0⟩
    · rw [hnone] at hi
      exact absurd hi (Nat.not_lt_zero i)
    · exact absurd h0 (by decide)

end Ziemniak.Stage2
