import Ziemniak.Stage2.Directory
import Ziemniak.Stage2.BootRuns

/-! # The root directory

A `RootDirectory` is what the search relies on: the descriptor is the first sector from LBA 16
on that starts with the signature, and every sector of the directory it names is a chain of
records, ended by a zero byte or by the end of the sector.  On such a disk, and when every
sector ends with a zero byte, `cdrom_search` finds the first record whose name begins with the
one searched for, and reads nothing outside the buffer (`cdromSearch_first`). -/

namespace Ziemniak.Stage2

open BareMetal

/-! ### Root directories -/

/-- A disk with a volume descriptor: the first sector from LBA 16 on that starts with the
signature. -/
structure Volume (disk : Disk) where
  lba_off : ℕ
  signature : disk (PVD_START + BitVec.ofNat 32 lba_off) 0 = PVD_SIGNATURE
  first : ∀ i < lba_off, disk (PVD_START + BitVec.ofNat 32 i) 0 ≠ PVD_SIGNATURE

namespace Volume

variable {disk : Disk} (v : Volume disk)

def descriptor : ℕ → BitVec 8 := disk (PVD_START + BitVec.ofNat 32 v.lba_off)

def dir_lba : BitVec 32 := read32 v.descriptor (DIR_OFFSET + DIR_EXT_LOC.toNat)

def dir_size : BitVec 32 := read32 v.descriptor (DIR_OFFSET + DIR_EXT_SIZE.toNat)

def dir_sectors : BitVec 16 := (v.dir_size / BitVec.ofNat 32 CD_SECTOR_SIZE).setWidth 16

/-- The sectors of the root directory, and how many of them fit in `dir_sectors`. -/
def sectors : ℕ := v.dir_size.toNat / CD_SECTOR_SIZE

def scanned : ℕ := v.sectors % 2 ^ 16

def sector (i : ℕ) : ℕ → BitVec 8 := disk (v.dir_lba + BitVec.ofNat 32 i)

end Volume

/-- The records of sector `i` of the root directory are those at `offs i`.  They end at
`stop i`, with a zero byte or with the sector. -/
structure RootDirectory (disk : Disk) extends Volume disk where
  offs : ℕ → List ℕ
  stop : ℕ → ℕ
  chain : ∀ i < toVolume.sectors,
    Chain (fun o => (toVolume.sector i o).toNat) 34 CD_SECTOR_SIZE 0 (offs i) (stop i)
  ended : ∀ i < toVolume.sectors, stop i < CD_SECTOR_SIZE → toVolume.sector i (stop i) = 0

/-- The bytes of the sector from offset 0x21 of the record at `o` on begin with `fname`. -/
def Begins (fname : List (BitVec 8)) (sector : ℕ → BitVec 8) (o : ℕ) : Prop :=
  o + 0x21 + fname.length ≤ CD_SECTOR_SIZE ∧ bytesAt sector (o + 0x21) fname.length = fname

instance (fname : List (BitVec 8)) (sector : ℕ → BitVec 8) (o : ℕ) :
    Decidable (Begins fname sector o) := inferInstanceAs (Decidable (_ ∧ _))

/-- Inside the sector the buffer and the disk hold the same name. -/
theorem matchAt_iff {buf : Buf} {fname : List (BitVec 8)} {sector : ℕ → BitVec 8}
    (hbuf : ∀ x < 2048, buf x = sector x) (hlen : fname.length ≤ 256) {o : ℕ}
    (hin : o + 0x21 + fname.length ≤ 2048) : MatchAt buf fname o ↔ Begins fname sector o := by
  unfold MatchAt Begins
  rw [bytesAt_congr (fun x _ hx => hbuf x (by omega))]
  exact ⟨fun h => ⟨hin, h.2⟩, fun h => ⟨hlen, h.2⟩⟩

theorem MatchAt.le {buf : Buf} {fname : List (BitVec 8)} (h0 : ∀ c ∈ fname, c ≠ 0) {o z : ℕ}
    (h : MatchAt buf fname o) (hz : buf z = 0) (ho : o + 0x21 ≤ z) :
    o + 0x21 + fname.length ≤ z := by
  by_contra hlt
  have hk : z - (o + 0x21) < fname.length := by omega
  have hb := bytesAt_eq_iff.mp h.2 _ hk
  rw [Nat.add_sub_cancel' ho, hz, List.getD_eq_getElem?_getD, List.getElem?_eq_getElem hk,
    Option.getD_some] at hb
  exact h0 _ (List.getElem_mem hk) hb.symm

namespace RootDirectory

variable {disk : Disk} (v : RootDirectory disk)

/-- The extent and the size in the record at `o` of sector `i`. -/
def extent (i o : ℕ) : BitVec 32 := read32 (v.sector i) (o + DIR_EXT_LOC.toNat)

def fileSize (i o : ℕ) : BitVec 32 := read32 (v.sector i) (o + DIR_EXT_SIZE.toNat)

/-- The first record of sector `i` whose name begins with `fname`. -/
def hit (fname : List (BitVec 8)) (i : ℕ) : Option ℕ :=
  (v.offs i).find? (fun o => decide (Begins fname (v.sector i) o))

/-- The search goes on behind sector `i`: nothing in it matches, or the extent of the first
match is 0. -/
def Passed (fname : List (BitVec 8)) (i : ℕ) : Prop :=
  match v.hit fname i with
  | some o => v.extent i o = 0
  | none => v.stop i < CD_SECTOR_SIZE

/-- The same when the byte behind the buffer is known: a zero byte there ends a full sector. -/
def PassedBefore (fname : List (BitVec 8)) (behind : BitVec 8) (i : ℕ) : Prop :=
  match v.hit fname i with
  | some o => v.extent i o = 0
  | none => v.stop i < CD_SECTOR_SIZE ∨ behind = 0

/-- All records in order, with the number of their sector. -/
def records : List (ℕ × ℕ) :=
  (List.range v.sectors).flatMap (fun i => (v.offs i).map (fun o => (i, o)))

/-- What is on the disk under the name: the extent and size of the first record that begins
with it, or two zeros. -/
def lookup (fname : List (BitVec 8)) : BitVec 32 × BitVec 32 :=
  match v.records.find? (fun r => decide (Begins fname (v.sector r.1) r.2)) with
  | some r => (v.extent r.1 r.2, v.fileSize r.1 r.2)
  | none => (0, 0)

variable {v} {buf : Buf} {fname : List (BitVec 8)} {i : ℕ}

theorem stop_le (hi : i < v.sectors) : v.stop i ≤ 2048 := (v.chain i hi).le_size (Nat.zero_le _)

theorem mem_offs (hi : i < v.sectors) {o : ℕ} (ho : o ∈ v.offs i) : o + 34 ≤ v.stop i := by
  have := (v.chain i hi).mem ho
  omega

theorem hit_mem {o : ℕ} (hhit : v.hit fname i = some o) : o ∈ v.offs i :=
  List.mem_of_find?_eq_some hhit

theorem mem_records (hi : i < v.sectors) {o : ℕ} (ho : o ∈ v.offs i) : (i, o) ∈ v.records := by
  unfold records
  rw [List.mem_flatMap]
  exact ⟨i, List.mem_range.mpr hi, List.mem_map_of_mem ho⟩

theorem search_hit (h0 : ∀ c ∈ fname, c ≠ 0) (hlen : fname.length ≤ 256) (hi : i < v.sectors)
    (hbuf : ∀ x < 2048, buf x = v.sector i x) {o : ℕ} (hhit : v.hit fname i = some o)
    (fsize : BitVec 32) : ∃ reads, (∀ fuel, (v.offs i).length < fuel →
      searchDirectoryM fuel fsize buf fname =
        some ⟨(v.extent i o, v.fileSize i o), some (BitVec.ofNat 32 o), reads⟩) ∧
      (v.stop i < 2048 → ∀ y ∈ reads, y < 2048) := by
  obtain ⟨hb, pre, post, hoffs, hpre⟩ := List.find?_eq_some_iff_append.mp hhit
  have hb' := of_decide_eq_true hb
  have hc := (v.chain i hi).congr (by omega)
    (fun x hx => congrArg BitVec.toNat (hbuf x hx).symm)
  have hstop := stop_le hi
  have ho := mem_offs hi (hit_mem hhit)
  rw [hoffs] at hc
  obtain ⟨e, hcpre, hcpost⟩ := hc.split
  obtain ⟨rfl, hleast, -, -⟩ := hcpost.cons
  have hne : buf o ≠ 0 := by
    intro hz
    simp [hz] at hleast
  have hm : MatchAt buf fname o := (matchAt_iff hbuf hlen hb'.1).mpr hb'
  have hmiss : ∀ y ∈ pre, ¬ MatchAt buf fname y := by
    intro y hy hmy
    have hle := hcpre.mem hy
    have hin := hb'.1
    unfold CD_SECTOR_SIZE at hin
    have hby := (matchAt_iff hbuf hlen (by omega)).mp hmy
    have hny := hpre y hy
    rw [decide_eq_true hby] at hny
    cases hny
  obtain ⟨reads, hrun, hreads⟩ := searchDirectoryM_hit h0 hcpre hmiss (by omega) hne hm fsize
  refine ⟨reads, ?_, fun hlt => hreads _ hlt (by omega) ?_⟩
  · intro fuel hfuel
    rw [hoffs, List.length_append] at hfuel
    rw [hrun fuel (by omega), read32_congr (c := v.sector i) (fun x _ hx => hbuf x (by omega)),
      read32_congr (c := v.sector i) (fun x _ hx => hbuf x (by omega))]
    rfl
  · rw [hbuf _ hlt]
    exact v.ended i hi hlt

/-- The byte at the end of a passed sector, inside the buffer or behind it. -/
theorem PassedBefore.ends (hi : i < v.sectors) (hbuf : ∀ x < 2048, buf x = v.sector i x)
    (hmiss : v.hit fname i = none) (hp : v.PassedBefore fname (buf 2048) i) :
    buf (v.stop i) = 0 := by
  have hle := stop_le hi
  unfold PassedBefore CD_SECTOR_SIZE at hp
  rw [hmiss] at hp
  by_cases hlt : v.stop i < 2048
  · rw [hbuf _ hlt]
    exact v.ended i hi hlt
  · rw [show v.stop i = 2048 by omega]
    exact hp.resolve_left hlt

theorem search_miss (h0 : ∀ c ∈ fname, c ≠ 0) (hlen : fname.length ≤ 256) (hi : i < v.sectors)
    (hbuf : ∀ x < 2048, buf x = v.sector i x) (hmiss : v.hit fname i = none)
    (hz : buf (v.stop i) = 0) (fsize : BitVec 32) : ∃ reads, (∀ fuel, (v.offs i).length < fuel →
      searchDirectoryM fuel fsize buf fname = some ⟨(0, fsize), none, reads⟩) ∧
      (v.stop i < 2048 → ∀ y ∈ reads, y < 2048) := by
  have hc := (v.chain i hi).congr (by omega)
    (fun x hx => congrArg BitVec.toNat (hbuf x hx).symm)
  have hstop := stop_le hi
  refine searchDirectoryM_miss h0 hc hstop hz ?_ fsize
  intro x hx hm
  have hx' := mem_offs hi hx
  have hle := hm.le h0 hz (by omega)
  have hb := (matchAt_iff hbuf hlen (by omega)).mp hm
  exact of_decide_eq_false (by simpa using List.find?_eq_none.mp hmiss x hx) hb

end RootDirectory

/-! ### The scan of its sectors -/

/-- From the states of `Good` on, enough fuel reads every sector of the disk. -/
def Serves {δ : Type} (read : ℕ → Reader δ) (disk : Disk) (Good : δ → Prop) : Prop :=
  ∀ lba d, Good d → ∃ d', Good d' ∧
    ∃ n, ∀ fuel, n ≤ fuel → read fuel lba d = some (fullReply (disk lba), d')

section scan

variable {δ : Type} {read : ℕ → Reader δ} {disk : Disk} {Good : δ → Prop}

/-- A scan of the directory that has come to an end. -/
def ScanSettles (read : ℕ → Reader δ) (v : Volume disk) (fname : List (BitVec 8))
    (s t : Watched (BitVec 32 × BitVec 32) (DirScan δ)) : Prop :=
  Settles (fun s => scanGuard v.dir_sectors s.val)
    (fun fuel => scanSectorM (read fuel) fuel fname v.dir_lba) s t

/-- The scan has read `i` sectors without a result.  The memory behind the buffer is as it was
at the start. -/
structure ScanAt (v : RootDirectory disk) (Good : δ → Prop) (buf₀ : Buf) (i : ℕ)
    (s : Watched (BitVec 32 × BitVec 32) (DirScan δ)) : Prop where
  cur : s.val.cur_dir_lba = BitVec.ofNat 32 i
  temp : s.val.temp = 0
  good : Good s.val.dev
  behind : ∀ x, 2048 ≤ x → s.val.buf x = buf₀ x
  inside : (∀ j < i, v.stop j < 2048) → ∀ y ∈ s.reads, y < 2048

variable {v : RootDirectory disk} {buf₀ : Buf} {i : ℕ} {fname : List (BitVec 8)}
  {s : Watched (BitVec 32 × BitVec 32) (DirScan δ)}

theorem dir_sectors_toNat (v : Volume disk) : (v.dir_sectors.setWidth 32).toNat = v.scanned := by
  have h2048 : (BitVec.ofNat 32 CD_SECTOR_SIZE).toNat = CD_SECTOR_SIZE := rfl
  unfold Volume.dir_sectors
  rw [BitVec.toNat_setWidth_of_le (by omega), BitVec.toNat_setWidth, BitVec.toNat_udiv, h2048]
  rfl

theorem scanned_lt (v : Volume disk) : v.scanned < 2 ^ 16 := Nat.mod_lt _ (by omega)

theorem scanned_le (v : Volume disk) : v.scanned ≤ v.sectors := Nat.mod_le _ _

theorem ScanAt.guard (hs : ScanAt v Good buf₀ i s) (hi : i ≤ v.scanned) :
    scanGuard v.dir_sectors s.val = decide (i < v.scanned) := by
  have hlt := scanned_lt v.toVolume
  have hcur : s.val.cur_dir_lba < v.dir_sectors.setWidth 32 ↔ i < v.scanned := by
    rw [hs.cur, BitVec.lt_def, dir_sectors_toNat, BitVec.toNat_ofNat, Nat.mod_eq_of_lt (by omega)]
  unfold scanGuard
  rw [hs.temp, decide_eq_decide.mpr hcur]
  rfl

/-- The buffer once sector `i` was read. -/
def sectorBuf (v : Volume disk) (i : ℕ) (buf : Buf) : Buf := (fullReply (v.sector i)).store buf

theorem sectorBuf_inside (v : Volume disk) (i : ℕ) (buf : Buf) :
    ∀ x < 2048, sectorBuf v i buf x = v.sector i x := by
  intro x hx
  unfold sectorBuf
  rw [fullReply_store, if_pos hx]

theorem sectorBuf_behind (v : Volume disk) (i : ℕ) (buf : Buf) {x : ℕ} (hx : 2048 ≤ x) :
    sectorBuf v i buf x = buf x := by
  unfold sectorBuf
  rw [fullReply_store, if_neg (by omega)]

theorem scanSectorM_round (hread : Serves read disk Good) (hs : ScanAt v Good buf₀ i s)
    {n : ℕ} {w : Watched (BitVec 32) (BitVec 32 × BitVec 32)}
    (hw : ∀ fuel, n < fuel →
      searchDirectoryM fuel s.val.fsize (sectorBuf v.toVolume i s.val.buf) fname = some w) :
    ∃ s', (∃ n, ∀ fuel, n ≤ fuel → scanSectorM (read fuel) fuel fname v.dir_lba s = some s') ∧
      s'.val.cur_dir_lba = BitVec.ofNat 32 (i + 1) ∧ (s'.val.temp, s'.val.fsize) = w.val ∧
      s'.val.buf = sectorBuf v.toVolume i s.val.buf ∧ Good s'.val.dev ∧
      s'.record = w.record.map (fun offset => (BitVec.ofNat 32 i, offset)) ∧
      s'.reads = s.reads ++ w.reads := by
  obtain ⟨d', hd', m, hm⟩ := hread (v.dir_lba + BitVec.ofNat 32 i) s.val.dev hs.good
  have hsucc : BitVec.ofNat 32 i + 1 = BitVec.ofNat 32 (i + 1) := (BitVec.ofNat_add i 1).symm
  refine ⟨⟨⟨BitVec.ofNat 32 (i + 1), w.val.1, w.val.2, sectorBuf v.toVolume i s.val.buf, d'⟩,
    w.record.map (fun offset => (BitVec.ofNat 32 i, offset)), s.reads ++ w.reads⟩,
    ⟨max m (n + 1), ?_⟩, rfl, rfl, by simp only, hd', rfl, rfl⟩
  intro fuel hfuel
  have hsec := hw fuel (by omega)
  unfold sectorBuf Volume.sector at hsec
  unfold scanSectorM
  simp only [hs.cur, hm fuel (by omega), hsec, hsucc, Option.bind_eq_bind, Option.bind_some]
  rfl

/-- What a passed sector returns, and that nothing outside the buffer was read. -/
theorem RootDirectory.search_passed {buf : Buf} (h0 : ∀ c ∈ fname, c ≠ 0)
    (hlen : fname.length ≤ 256) (hi : i < v.sectors) (hbuf : ∀ x < 2048, buf x = v.sector i x)
    (hp : v.PassedBefore fname (buf 2048) i) (fsize : BitVec 32) :
    ∃ w : Watched (BitVec 32) (BitVec 32 × BitVec 32), (∀ fuel, (v.offs i).length < fuel →
      searchDirectoryM fuel fsize buf fname = some w) ∧ w.val.1 = 0 ∧
      (v.stop i < 2048 → ∀ y ∈ w.reads, y < 2048) := by
  cases hhit : v.hit fname i with
  | some o =>
      unfold RootDirectory.PassedBefore at hp
      rw [hhit] at hp
      obtain ⟨reads, hrun, hreads⟩ := search_hit h0 hlen hi hbuf hhit fsize
      exact ⟨_, hrun, hp, hreads⟩
  | none =>
      obtain ⟨reads, hrun, hreads⟩ := search_miss h0 hlen hi hbuf hhit (hp.ends hi hbuf hhit) fsize
      exact ⟨_, hrun, rfl, hreads⟩

theorem ScanAt.pass (hread : Serves read disk Good) (h0 : ∀ c ∈ fname, c ≠ 0)
    (hlen : fname.length ≤ 256) (hs : ScanAt v Good buf₀ i s) (hi : i < v.scanned)
    (hp : v.PassedBefore fname (buf₀ 2048) i) : ∃ s', ScanAt v Good buf₀ (i + 1) s' ∧
      ∀ t, ScanSettles read v.toVolume fname s' t → ScanSettles read v.toVolume fname s t := by
  have hguard := hs.guard (Nat.le_of_lt hi)
  rw [decide_eq_true hi] at hguard
  have hbehind : sectorBuf v.toVolume i s.val.buf 2048 = buf₀ 2048 := by
    rw [sectorBuf_behind _ _ _ le_rfl, hs.behind 2048 le_rfl]
  rw [← hbehind] at hp
  obtain ⟨w, hrun, hw, hreads⟩ := RootDirectory.search_passed h0 hlen
    (lt_of_lt_of_le hi (scanned_le _)) (sectorBuf_inside v.toVolume i s.val.buf) hp s.val.fsize
  obtain ⟨s', hround, hcur, hval, hbuf, hgood, -, hsreads⟩ := scanSectorM_round hread hs hrun
  refine ⟨s', ⟨hcur, (congrArg Prod.fst hval).trans hw, hgood, ?_, ?_⟩,
    fun t ht => Settles.round hguard hround ht⟩
  · intro x hx
    rw [hbuf, sectorBuf_behind _ _ _ hx, hs.behind x hx]
  · intro hstop
    rw [hsreads]
    exact List.forall_mem_append.mpr ⟨hs.inside (fun j hj => hstop j (by omega)),
      hreads (hstop i (by omega))⟩

/-- The scan comes to every sector that has only passed ones before it. -/
theorem ScanAt.reach (hread : Serves read disk Good) (h0 : ∀ c ∈ fname, c ≠ 0)
    (hlen : fname.length ≤ 256) (hs : ScanAt v Good buf₀ 0 s) (hi : i ≤ v.scanned)
    (hp : ∀ j < i, v.PassedBefore fname (buf₀ 2048) j) : ∃ s', ScanAt v Good buf₀ i s' ∧
      ∀ t, ScanSettles read v.toVolume fname s' t → ScanSettles read v.toVolume fname s t := by
  induction i with
  | zero => exact ⟨s, hs, fun _ h => h⟩
  | succ i ih =>
      obtain ⟨s₁, hs₁, hto⟩ := ih (by omega) (fun j hj => hp j (by omega))
      obtain ⟨s₂, hs₂, hto'⟩ := hs₁.pass hread h0 hlen hi (hp i (by omega))
      exact ⟨s₂, hs₂, fun t ht => hto t (hto' t ht)⟩

theorem ScanAt.settles_end (hs : ScanAt v Good buf₀ v.scanned s) :
    ScanSettles read v.toVolume fname s s := by
  have hguard := hs.guard le_rfl
  rw [decide_eq_false (Nat.lt_irrefl _)] at hguard
  exact Settles.exit hguard

/-- A round that finds a record with an extent is the last. -/
theorem ScanAt.settles_found (hread : Serves read disk Good) (hs : ScanAt v Good buf₀ i s)
    (hi : i < v.scanned) {n : ℕ} {w : Watched (BitVec 32) (BitVec 32 × BitVec 32)}
    (hw : ∀ fuel, n < fuel →
      searchDirectoryM fuel s.val.fsize (sectorBuf v.toVolume i s.val.buf) fname = some w)
    (hne : w.val.1 ≠ 0) : ∃ t, ScanSettles read v.toVolume fname s t ∧
      t.val.cur_dir_lba = BitVec.ofNat 32 (i + 1) ∧ (t.val.temp, t.val.fsize) = w.val ∧
      t.record = w.record.map (fun offset => (BitVec.ofNat 32 i, offset)) ∧
      t.reads = s.reads ++ w.reads := by
  have hguard := hs.guard (Nat.le_of_lt hi)
  rw [decide_eq_true hi] at hguard
  obtain ⟨s', hround, hcur, hval, -, -, hrecord, hreads⟩ := scanSectorM_round hread hs hw
  have htemp : s'.val.temp ≠ 0 := by
    rw [← hval] at hne
    exact hne
  have hexit : scanGuard v.dir_sectors s'.val = false := by
    unfold scanGuard
    rw [beq_eq_false_iff_ne.mpr htemp]
    rfl
  exact ⟨s', Settles.round hguard hround (Settles.exit hexit), hcur, hval, hrecord, hreads⟩

/-! ### The descriptor -/

/-- The buffer holds the location of the root directory, as the descriptor has it. -/
def BufNames (v : Volume disk) (buf : Buf) : Prop :=
  read32 buf (DIR_OFFSET + DIR_EXT_LOC.toNat) = v.dir_lba ∧
    read32 buf (DIR_OFFSET + DIR_EXT_SIZE.toNat) = v.dir_size

theorem bufNames_of_descriptor {v : Volume disk} {buf : Buf}
    (h : ∀ x < 2048, buf x = v.descriptor x) : BufNames v buf := by
  have hoff : DIR_OFFSET + DIR_EXT_LOC.toNat = 158 ∧ DIR_OFFSET + DIR_EXT_SIZE.toNat = 166 :=
    ⟨rfl, rfl⟩
  unfold BufNames Volume.dir_lba Volume.dir_size
  rw [hoff.1, hoff.2]
  exact ⟨read32_congr (fun x _ hx => h x (by omega)), read32_congr (fun x _ hx => h x (by omega))⟩

/-- The loop over the sectors from LBA 16 on, entered when `k` of them were read. -/
theorem findDescriptor_from (hread : Serves read disk Good) (v : Volume disk) {r k : ℕ}
    (hk : k + r = v.lba_off) {b : Buf} (hb : b 0 ≠ PVD_SIGNATURE) {d : δ} (hd : Good d) :
    ∃ n b' d', Good d' ∧ BufNames v b' ∧ (∀ x, 2048 ≤ x → b' x = b x) ∧
      Settles (fun s : BitVec 32 × Buf × δ => s.2.1 0 != PVD_SIGNATURE)
        (fun fuel s => (read fuel (PVD_START + s.1) s.2.2).map
          (fun r => (s.1 + 1, r.1.store s.2.1, r.2)))
        (BitVec.ofNat 32 k, b, d) (n, b', d') := by
  induction r generalizing k b d with
  | zero =>
      obtain ⟨d₁, hd₁, m, hm⟩ := hread (PVD_START + BitVec.ofNat 32 k) d hd
      have hbuf : ∀ x < 2048, (fullReply (disk (PVD_START + BitVec.ofNat 32 k))).store b x =
          v.descriptor x := by
        intro x hx
        obtain rfl : k = v.lba_off := by omega
        rw [fullReply_store, if_pos hx]
        rfl
      refine ⟨_, _, d₁, hd₁, bufNames_of_descriptor hbuf, ?_, Settles.round (by simpa using hb)
        ⟨m, fun fuel hfuel => by rw [hm fuel hfuel, Option.map_some]⟩ (Settles.exit ?_)⟩
      · intro x hx
        rw [fullReply_store, if_neg (by omega)]
      · have hsig : v.descriptor 0 = PVD_SIGNATURE := v.signature
        simp [hbuf 0 (by omega), hsig]
  | succ r ih =>
      obtain ⟨d₁, hd₁, m, hm⟩ := hread (PVD_START + BitVec.ofNat 32 k) d hd
      have hne : (fullReply (disk (PVD_START + BitVec.ofNat 32 k))).store b 0 ≠
          PVD_SIGNATURE := by
        rw [fullReply_store, if_pos (by omega)]
        exact v.first k (by omega)
      have hsucc : BitVec.ofNat 32 k + 1 = BitVec.ofNat 32 (k + 1) := (BitVec.ofNat_add k 1).symm
      obtain ⟨n, b', d', hd', hnames, hbehind, hrun⟩ := ih (k := k + 1) (by omega) hne hd₁
      refine ⟨n, b', d', hd', hnames, ?_, Settles.round (by simpa using hb)
        ⟨m, fun fuel hfuel => by rw [hm fuel hfuel, Option.map_some, hsucc]⟩ hrun⟩
      intro x hx
      rw [hbehind x hx, fullReply_store, if_neg (by omega)]

/-- A buffer that starts with the signature on entry is taken for the descriptor itself. -/
theorem findDescriptor_names (hread : Serves read disk Good) (v : Volume disk) {buf : Buf}
    (hb : buf 0 = PVD_SIGNATURE → BufNames v buf) {d : δ} (hd : Good d) :
    ∃ lba_off b d', Good d' ∧ BufNames v b ∧ (∀ x, 2048 ≤ x → b x = buf x) ∧
      ∃ n, ∀ fuel, n ≤ fuel → findDescriptor (read fuel) fuel buf d = some (lba_off, b, d') := by
  by_cases h1 : buf 0 = PVD_SIGNATURE
  · exact ⟨0, buf, d, hd, hb h1, fun _ _ => rfl, 0,
      fun fuel _ => whileLoop_of_not (by simpa using h1) fuel⟩
  · obtain ⟨lba_off, b, d', hd', hnames, hbehind, n, hn⟩ :=
      findDescriptor_from hread v (Nat.zero_add _) h1 hd
    exact ⟨lba_off, b, d', hd', hnames, hbehind, n, fun fuel hfuel => hn fuel hfuel fuel hfuel⟩

/-- The search up to the first sector of the directory; what the scan settles on is returned. -/
theorem cdromSearchM_scan (hread : Serves read disk Good) (v : RootDirectory disk)
    (fname : List (BitVec 8)) (fsize : BitVec 32) {buf : Buf}
    (hb : buf 0 = PVD_SIGNATURE → BufNames v.toVolume buf) {d : δ} (hd : Good d) :
    ∃ s, ScanAt v Good buf 0 s ∧ ∀ t, ScanSettles read v.toVolume fname s t →
      ∃ n, ∀ fuel, n ≤ fuel →
        cdromSearchM (read fuel) fuel fname fsize buf d = some (searchResult t) := by
  obtain ⟨lba_off, b, d', hd', ⟨hlba, hsize⟩, hbehind, n, hn⟩ :=
    findDescriptor_names hread v.toVolume hb hd
  have hreads : ∀ y ∈ 0 :: (fieldReads (DIR_OFFSET + DIR_EXT_LOC.toNat) ++
      fieldReads (DIR_OFFSET + DIR_EXT_SIZE.toNat)), y < 2048 := by decide
  refine ⟨scanStart fsize b d', ⟨rfl, rfl, hd', hbehind, fun _ => hreads⟩, ?_⟩
  rintro t ⟨k, hk⟩
  refine ⟨max n k, ?_⟩
  intro fuel hfuel
  have hscan : scanDirectoryM (read fuel) fuel fname v.dir_lba v.dir_sectors
      (scanStart fsize b d') = some t := hk fuel (by omega) fuel (by omega)
  unfold cdromSearchM
  simp only [hn fuel (by omega), hlba, hsize, Option.bind_eq_bind, Option.bind_some]
  unfold Volume.dir_sectors at hscan
  rw [hscan]
  rfl

end scan

/-! ### The first record with the name -/

namespace RootDirectory

variable {disk : Disk} {v : RootDirectory disk} {fname : List (BitVec 8)}

theorem find_records (fname : List (BitVec 8)) :
    v.records.find? (fun r => decide (Begins fname (v.sector r.1) r.2)) =
      (List.range v.sectors).findSome? (fun i => (v.hit fname i).map (fun o => (i, o))) := by
  unfold records hit
  simp only [List.find?_flatMap, List.find?_map]
  rfl

theorem lookup_of_hit {i o : ℕ} (hi : i < v.sectors) (hhit : v.hit fname i = some o)
    (hmiss : ∀ j < i, v.hit fname j = none) :
    v.lookup fname = (v.extent i o, v.fileSize i o) := by
  have hfind : v.records.find? (fun r => decide (Begins fname (v.sector r.1) r.2)) =
      some (i, o) := by
    rw [find_records, List.findSome?_eq_some_iff]
    obtain ⟨k, hk⟩ : ∃ k, v.sectors = i + (k + 1) := ⟨v.sectors - (i + 1), by omega⟩
    refine ⟨List.range i, i, List.range' (i + 1) k, ?_, ?_, ?_⟩
    · rw [hk, List.range_eq_range', List.range_eq_range', ← List.range'_succ,
        ← List.range'_append_1, Nat.zero_add]
    · rw [hhit]
      rfl
    · intro j hj
      rw [hmiss j (List.mem_range.mp hj)]
      rfl
  unfold lookup
  rw [hfind]

theorem lookup_of_miss (hmiss : ∀ j < v.sectors, v.hit fname j = none) :
    v.lookup fname = (0, 0) := by
  have hfind : v.records.find? (fun r => decide (Begins fname (v.sector r.1) r.2)) = none := by
    rw [find_records, List.findSome?_eq_none_iff]
    intro j hj
    rw [hmiss j (List.mem_range.mp hj)]
    rfl
  unfold lookup
  rw [hfind]

theorem passedBefore_of_miss {i : ℕ} (h : v.hit fname i = none)
    (hstop : v.stop i < CD_SECTOR_SIZE) (behind : BitVec 8) : v.PassedBefore fname behind i := by
  unfold PassedBefore
  rw [h]
  exact Or.inl hstop

theorem Passed.before {i : ℕ} (h : v.Passed fname i) (behind : BitVec 8) :
    v.PassedBefore fname behind i := by
  unfold Passed at h
  unfold PassedBefore
  cases hhit : v.hit fname i with
  | some o =>
      rw [hhit] at h
      exact h
  | none =>
      rw [hhit] at h
      exact Or.inl h

end RootDirectory

section first

variable {δ : Type} {read : ℕ → Reader δ} {disk : Disk} {Good : δ → Prop}
  {v : RootDirectory disk} {buf₀ : Buf} {fname : List (BitVec 8)}
  {s : Watched (BitVec 32 × BitVec 32) (DirScan δ)}

theorem ScanAt.settles_hit (hread : Serves read disk Good) (hs : ScanAt v Good buf₀ 0 s)
    (hsize : v.sectors < 65536) (hstop : ∀ i < v.sectors, v.stop i < CD_SECTOR_SIZE)
    (h0 : ∀ c ∈ fname, c ≠ 0) (hlen : fname.length ≤ 256) {i o : ℕ} (hi : i < v.sectors)
    (hhit : v.hit fname i = some o) (hmiss : ∀ j < i, v.hit fname j = none)
    (hne : v.extent i o ≠ 0) : ∃ t, ScanSettles read v.toVolume fname s t ∧
      (searchResult t).val.1 = v.lookup fname ∧ ∀ y ∈ (searchResult t).reads, y < 2048 := by
  have hscanned : v.scanned = v.sectors := Nat.mod_eq_of_lt hsize
  obtain ⟨s', hs', hto⟩ := hs.reach hread h0 hlen (by omega)
    (fun j hj => RootDirectory.passedBefore_of_miss (hmiss j hj) (hstop j (by omega)) _)
  obtain ⟨reads, hsec, hreads⟩ := RootDirectory.search_hit h0 hlen hi
    (sectorBuf_inside v.toVolume i s'.val.buf) hhit s'.val.fsize
  obtain ⟨t, ht, -, hval, -, htreads⟩ := hs'.settles_found hread (by omega) hsec hne
  obtain ⟨htemp, -⟩ := Prod.mk.inj hval
  refine ⟨t, hto t ht, ?_⟩
  unfold searchResult
  rw [if_pos (by rw [htemp]; exact hne), RootDirectory.lookup_of_hit hi hhit hmiss]
  refine ⟨hval, ?_⟩
  rw [htreads]
  exact List.forall_mem_append.mpr ⟨hs'.inside (fun j hj => hstop j (by omega)),
    hreads (hstop i hi)⟩

theorem ScanAt.settles_miss (hread : Serves read disk Good) (hs : ScanAt v Good buf₀ 0 s)
    (hsize : v.sectors < 65536) (hstop : ∀ i < v.sectors, v.stop i < CD_SECTOR_SIZE)
    (h0 : ∀ c ∈ fname, c ≠ 0) (hlen : fname.length ≤ 256)
    (hmiss : ∀ j < v.sectors, v.hit fname j = none) :
    ∃ t, ScanSettles read v.toVolume fname s t ∧
      (searchResult t).val.1 = v.lookup fname ∧ ∀ y ∈ (searchResult t).reads, y < 2048 := by
  have hscanned : v.scanned = v.sectors := Nat.mod_eq_of_lt hsize
  obtain ⟨t, ht, hto⟩ := hs.reach hread h0 hlen le_rfl
    (fun j hj => RootDirectory.passedBefore_of_miss (hmiss j (by omega)) (hstop j (by omega)) _)
  refine ⟨t, hto t ht.settles_end, ?_⟩
  unfold searchResult
  rw [if_neg (not_not_intro ht.temp), RootDirectory.lookup_of_miss hmiss]
  exact ⟨rfl, ht.inside (fun j hj => hstop j (by omega))⟩

end first

/-- **Search.**  On a disk whose sectors all read, with a root directory of fewer than 65536
sectors that all end with a zero byte, `cdrom_search` returns: the extent and the size in the
first record whose name begins with the one searched for, or two zeros.  It reads nothing
outside the buffer. -/
theorem cdromSearch_first {δ : Type} {dev : Device δ} {cd : Cdrom} {disk : Disk}
    {Good : δ → Prop} (hread : Serves (fun fuel => cdromReadSector dev fuel cd) disk Good)
    (v : RootDirectory disk) (hsize : v.sectors < 65536)
    (hstop : ∀ i < v.sectors, v.stop i < CD_SECTOR_SIZE) {fname : List (BitVec 8)}
    (h0 : ∀ c ∈ fname, c ≠ 0) (hlen : fname.length ≤ 256)
    (hext : ∀ r ∈ v.records, Begins fname (v.sector r.1) r.2 → v.extent r.1 r.2 ≠ 0)
    (buf : Buf) (hb : buf 0 ≠ PVD_SIGNATURE) {d : δ} (hd : Good d) (fsize : BitVec 32) :
    ∃ n b d', ∀ fuel, n ≤ fuel →
      cdromSearch (cdromReadSector dev fuel cd) fuel fname fsize buf d =
        some (v.lookup fname, b, d') ∧
      ∃ w, cdromSearchM (cdromReadSector dev fuel cd) fuel fname fsize buf d = some w ∧
        ∀ y ∈ w.reads, y < CD_SECTOR_SIZE := by
  obtain ⟨s₀, hs₀, hrun⟩ := cdromSearchM_scan hread v fname fsize (fun h => absurd h hb) hd
  suffices h : ∃ t, ScanSettles (fun fuel => cdromReadSector dev fuel cd) v.toVolume fname s₀ t ∧
      (searchResult t).val.1 = v.lookup fname ∧ ∀ y ∈ (searchResult t).reads, y < 2048 by
    obtain ⟨t, ht, hval, hreads⟩ := h
    obtain ⟨n, hn⟩ := hrun t ht
    refine ⟨n, (searchResult t).val.2.1, (searchResult t).val.2.2, ?_⟩
    intro fuel hfuel
    have hM := hn fuel hfuel
    refine ⟨?_, _, hM, hreads⟩
    rw [← cdromSearchM_val, hM, Option.map_some, ← hval]
  by_cases hmiss : ∀ j < v.sectors, v.hit fname j = none
  · exact hs₀.settles_miss hread hsize hstop h0 hlen hmiss
  · obtain ⟨i, hi, hhit, hbefore⟩ := exists_first hmiss
    obtain ⟨o, hhit⟩ := Option.ne_none_iff_exists'.mp hhit
    have hbegins : Begins fname (v.sector i) o :=
      of_decide_eq_true (List.find?_eq_some_iff_append.mp hhit).1
    have hmem := RootDirectory.mem_records hi (RootDirectory.hit_mem hhit)
    exact hs₀.settles_hit hread hsize hstop h0 hlen hi hhit hbefore (hext (i, o) hmem hbegins)

theorem drive_serves (disk : Disk) (cd : Cdrom) :
    Serves (fun fuel => cdromReadSector (drive disk (fun _ => false) cd.io_port) fuel cd) disk
      (fun _ => True) := by
  intro lba s _
  obtain ⟨s', hs'⟩ := cdromReadSector_drive disk (fun _ => false) 0 cd lba s
  exact ⟨s', trivial, 1, fun fuel hfuel => cdromReadSector_mono hfuel hs'⟩

/-- The root directory of that small disk: one sector with one record. -/
def potatoRoot : RootDirectory potatoDisk where
  lba_off := 0
  signature := by decide
  first := fun i hi => absurd hi (Nat.not_lt_zero i)
  offs := fun _ => [0]
  stop := fun _ => 44
  chain := by
    intro i hi
    obtain rfl := Nat.lt_one_iff.mp hi
    exact .record (by decide) (by decide) (.stop 44)
  ended := by
    intro i hi _
    obtain rfl := Nat.lt_one_iff.mp hi
    decide

theorem cdromSearch_first_potato : ∃ n b d', ∀ fuel, n ≤ fuel →
    cdromSearch (cdromReadSector (drive potatoDisk (fun _ => false) 0x170) fuel plainCdrom) fuel
      kernel_name 0 (fun _ => 0) idleDrive = some ((30, 2049), b, d') := by
  have hlookup : potatoRoot.lookup kernel_name = (30, 2049) := by decide
  have hname : ∀ c ∈ kernel_name, c ≠ 0 := by decide
  have hext : ∀ r ∈ potatoRoot.records,
      Begins kernel_name (potatoRoot.sector r.1) r.2 → potatoRoot.extent r.1 r.2 ≠ 0 := by
    decide
  obtain ⟨n, b, d', h⟩ := cdromSearch_first (drive_serves potatoDisk plainCdrom) potatoRoot
    (by decide) (fun i _ => (by decide : 44 < CD_SECTOR_SIZE)) hname (by decide) hext
    (fun _ => 0) (by decide) (d := idleDrive) trivial 0
  refine ⟨n, b, d', ?_⟩
  intro fuel hfuel
  rw [← hlookup]
  exact (h fuel hfuel).1

end Ziemniak.Stage2
