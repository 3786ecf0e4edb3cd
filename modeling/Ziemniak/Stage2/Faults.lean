import Ziemniak.Stage2.FileName

/-! # Reads that fail

What a failed or short read does to the kernel that gets started.  `main` never looks at what
`cdrom_read_sector` returns, so a run with faults goes on with what the buffer held before.

The kernel file of a disk is what its root directory says (`KernelFile`), whatever the search
does.  `loaded_iff` says for which disks and drives every run that reaches the kernel has loaded
that file, with no failed or short read behind it (`KernelLoaded`): the record the search takes
has to be that of the file, the drive has to deliver the sectors of the load, which the disk
alone determines, one after another, and the file has to end below 4 GiB (`LoadsKernel`). -/

namespace Ziemniak.Stage2

open BareMetal

/-! ### The record the search takes -/

section takes

variable {disk : Disk}

/-- The first match of sector `i` is at `o` and has an extent; every earlier sector has no match,
or a first one without an extent. -/
def RootDirectory.Takes (v : RootDirectory disk) (fname : List (BitVec 8)) (i o : ℕ) : Prop :=
  i < v.scanned ∧ v.hit fname i = some o ∧ v.extent i o ≠ 0 ∧
    ∀ j < i, ∀ o', v.hit fname j = some o' → v.extent j o' = 0

/-- The sectors up to the descriptor, then those of the directory up to sector `i`. -/
def searchReads (v : Volume disk) (i : ℕ) : List (BitVec 32) :=
  (List.range (v.lba_off + 1)).map (fun k => PVD_START + BitVec.ofNat 32 k) ++
    (List.range (i + 1)).map (fun k => v.dir_lba + BitVec.ofNat 32 k)

theorem disk_serves : Serves (fun _ => logged (diskReader disk)) disk (fun _ => True) := by
  intro lba d _
  exact ⟨_, trivial, 0, fun _ _ => rfl⟩

theorem findDescriptor_disk (v : Volume disk) : ∃ b log,
    findDescriptor (logged (diskReader disk)) (v.lba_off + 1) (fun _ => 0) ((), []) =
      some (BitVec.ofNat 32 (v.lba_off + 1), b, ((), log)) ∧ BufNames v b ∧ b 2048 = 0 ∧
    log.map Prod.fst =
      (List.range (v.lba_off + 1)).map (fun k => PVD_START + BitVec.ofNat 32 k) := by
  obtain ⟨⟨n, b, ⟨⟩, log⟩, hrun, r, hr, rfl, hlog, h2048, -, hend⟩ := whileLoop_of_count
    (c := fun s : BitVec 32 × Buf × (Unit × Log) => s.2.1 0 != PVD_SIGNATURE)
    (f := fun s => (logged (diskReader disk) (PVD_START + s.1) s.2.2).map
      (fun r => (s.1 + 1, r.1.store s.2.1, r.2)))
    (fun k s => ∃ r, r + k = v.lba_off + 1 ∧ s.1 = BitVec.ofNat 32 r ∧
      s.2.2.2.map Prod.fst = (List.range r).map (fun k => PVD_START + BitVec.ofNat 32 k) ∧
      s.2.1 2048 = 0 ∧ (0 < k → s.2.1 0 ≠ PVD_SIGNATURE) ∧
      (k = 0 → BufNames v s.2.1 ∧ s.2.1 0 = PVD_SIGNATURE))
    (by
      rintro k ⟨n, b, ⟨⟩, log⟩ ⟨r, hr, rfl, hlog, h2048, hne, -⟩
      have hsucc : BitVec.ofNat 32 r + 1 = BitVec.ofNat 32 (r + 1) := (BitVec.ofNat_add r 1).symm
      have hbuf : ∀ x < 2048, (fullReply (disk (PVD_START + BitVec.ofNat 32 r))).store b x =
          disk (PVD_START + BitVec.ofNat 32 r) x := by
        intro x hx
        rw [fullReply_store, if_pos hx]
      refine ⟨by simpa using hne (Nat.succ_pos k), _, rfl, r + 1, by omega, hsucc, ?_, ?_, ?_, ?_⟩
      · rw [List.map_append, hlog, List.range_succ, List.map_append]
        rfl
      · simp only
        rw [fullReply_store, if_neg (by omega)]
        exact h2048
      · intro hk
        simp only
        rw [hbuf 0 (by omega)]
        exact v.first r (by omega)
      · intro hk
        obtain rfl : r = v.lba_off := by omega
        simp only
        rw [hbuf 0 (by omega)]
        exact ⟨bufNames_of_descriptor hbuf, v.signature⟩)
    (by
      rintro ⟨n, b, s⟩ ⟨r, -, -, -, -, -, hend⟩
      simpa using (hend rfl).2)
    (v.lba_off + 1) (0, fun _ => 0, (), [])
    ⟨0, by omega, rfl, rfl, rfl, fun _ => by decide, fun h => absurd h (by omega)⟩
  obtain rfl : r = v.lba_off + 1 := by omega
  exact ⟨b, log, hrun, (hend rfl).1, h2048, hlog⟩

/-- The loop over the directory reads its sectors in order. -/
theorem scanDirectory_reads {δ : Type} {read : Reader δ} {fuel : ℕ} {fname : List (BitVec 8)}
    {dir_lba : BitVec 32} {dir_sectors : BitVec 16} {s t : DirScan δ}
    (h : scanDirectory read fuel fname dir_lba dir_sectors s = some t) (hs : s.cur_dir_lba = 0) :
    ∃ log, Reads read s.dev log t.dev ∧ log.map Prod.fst =
      (List.range t.cur_dir_lba.toNat).map (fun k => dir_lba + BitVec.ofNat 32 k) := by
  have hlt := (dir_sectors.setWidth 32).isLt
  refine (whileLoop_invariant (I := fun u : DirScan δ => ∃ log, Reads read s.dev log u.dev ∧
    log.map Prod.fst = (List.range u.cur_dir_lba.toNat).map
      (fun k => dir_lba + BitVec.ofNat 32 k)) ?_ ⟨[], rfl, by rw [hs]; rfl⟩ h).1
  rintro u u' ⟨log, hreads, hlbas⟩ hc hu
  unfold scanSector at hu
  simp only [Option.bind_eq_bind, Option.bind_eq_some_iff, Option.pure_def,
    Option.some.injEq] at hu
  obtain ⟨⟨r, d⟩, hr, w, -, rfl⟩ := hu
  simp only [Bool.and_eq_true, decide_eq_true_eq, BitVec.lt_def] at hc
  have hcur : BitVec.ofNat 32 u.cur_dir_lba.toNat = u.cur_dir_lba := by simp
  refine ⟨log ++ [(dir_lba + u.cur_dir_lba, r)],
    reads_append.mpr ⟨u.dev, hreads, reads_singleton.mpr hr⟩, ?_⟩
  simp only [toNat_succ_of_lt hc.2 hlt, List.map_append, hlbas, List.range_succ, hcur,
    List.map_cons, List.map_nil]

theorem findDescriptor_reads {δ : Type} {read : Reader δ} {fuel : ℕ} {buf : Buf} {d : δ}
    {t : BitVec 32 × Buf × δ} (h : findDescriptor read fuel buf d = some t) :
    ∃ log, Reads read d log t.2.2 := by
  refine (whileLoop_invariant (I := fun s : BitVec 32 × Buf × δ => ∃ log, Reads read d log s.2.2)
    ?_ ⟨[], by rfl⟩ h).1
  rintro ⟨n, b, e⟩ s' ⟨log, hreads⟩ - hs
  obtain ⟨⟨r, e'⟩, hr, rfl⟩ := Option.map_eq_some_iff.mp hs
  exact ⟨log ++ [(PVD_START + n, r)], reads_append.mpr ⟨e, hreads, reads_singleton.mpr hr⟩⟩

theorem cdromSearch_reads {δ : Type} {read : Reader δ} {fuel : ℕ} {fname : List (BitVec 8)}
    {fsize : BitVec 32} {buf b : Buf} {d d' : δ} {res : BitVec 32 × BitVec 32}
    (h : cdromSearch read fuel fname fsize buf d = some (res, b, d')) :
    ∃ log, Reads read d log d' := by
  unfold cdromSearch at h
  simp only [Option.bind_eq_bind, Option.bind_eq_some_iff] at h
  obtain ⟨⟨n, b₁, d₁⟩, hfind, t, hscan, hres⟩ := h
  have hdev : t.dev = d' := by
    split_ifs at hres <;> simpa using congrArg (fun o => o.map (fun r => r.2.2)) hres
  obtain ⟨log₁, h₁⟩ := findDescriptor_reads hfind
  obtain ⟨log₂, h₂, -⟩ := scanDirectory_reads hscan rfl
  rw [hdev] at h₂
  exact ⟨log₁ ++ log₂, reads_append.mpr ⟨d₁, h₁, h₂⟩⟩

variable {v : RootDirectory disk} {fname : List (BitVec 8)}

theorem passedBefore_zero {i : ℕ} (h : ∀ o, v.hit fname i = some o → v.extent i o = 0) :
    v.PassedBefore fname 0 i := by
  unfold RootDirectory.PassedBefore
  cases hhit : v.hit fname i with
  | some o => exact h o hhit
  | none => exact Or.inr rfl

theorem scanAt_start (b : Buf) (s : Unit × Log) :
    ScanAt v (fun _ => True) b 0 (scanStart 0 b s) := by
  have hreads : ∀ y ∈ 0 :: (fieldReads (DIR_OFFSET + DIR_EXT_LOC.toNat) ++
      fieldReads (DIR_OFFSET + DIR_EXT_SIZE.toNat)), y < 2048 := by decide
  exact ⟨rfl, rfl, trivial, fun _ _ => rfl, fun _ => hreads⟩

/-- What the scan settles on is what the loop returns. -/
theorem scanDirectory_of_settles {b : Buf} {s : Unit × Log}
    {t : Watched (BitVec 32 × BitVec 32) (DirScan (Unit × Log))}
    (ht : ScanSettles (fun _ => logged (diskReader disk)) v.toVolume fname (scanStart 0 b s) t) :
    ∃ n, scanDirectory (logged (diskReader disk)) n fname v.dir_lba v.dir_sectors
      { cur_dir_lba := 0, temp := 0, fsize := 0, buf := b, dev := s } = some t.val := by
  obtain ⟨n, hn⟩ := ht
  refine ⟨n, ?_⟩
  have hM : scanDirectoryM (logged (diskReader disk)) n fname v.dir_lba v.dir_sectors
      (scanStart 0 b s) = some t := hn n le_rfl n le_rfl
  have hval := scanDirectoryM_val (logged (diskReader disk)) n fname v.dir_lba v.dir_sectors
    (scanStart 0 b s)
  rw [hM] at hval
  exact hval.symm

/-- The search of the disk up to its directory; the rest is the scan. -/
theorem cdromSearch_disk (v : RootDirectory disk) (fname : List (BitVec 8)) : ∃ b log,
    b 2048 = 0 ∧ log.map Prod.fst =
      (List.range (v.lba_off + 1)).map (fun k => PVD_START + BitVec.ofNat 32 k) ∧
    ∀ n t, scanDirectory (logged (diskReader disk)) n fname v.dir_lba v.dir_sectors
        { cur_dir_lba := 0, temp := 0, fsize := 0, buf := b, dev := ((), log) } = some t →
      ∃ k, cdromSearch (logged (diskReader disk)) k fname 0 (fun _ => 0) ((), []) =
        some (if t.temp ≠ 0 then (t.temp, t.fsize) else (0, 0), t.buf, t.dev) := by
  obtain ⟨b, log, hfind, ⟨hlba, hsize⟩, h2048, hlog⟩ := findDescriptor_disk v.toVolume
  refine ⟨b, log, h2048, hlog, ?_⟩
  intro n t hscan
  refine ⟨max (v.lba_off + 1) n, ?_⟩
  have hfind' : findDescriptor (logged (diskReader disk)) (max (v.lba_off + 1) n) (fun _ => 0)
      ((), []) = _ := whileLoop_mono (Nat.le_max_left _ n) hfind
  have hscan' := scanDirectory_mono (Nat.le_max_right (v.lba_off + 1) n) hscan
  unfold Volume.dir_sectors at hscan'
  unfold cdromSearch
  simp only [hfind', hlba, hsize, Option.bind_eq_bind, Option.bind_some, hscan']
  split_ifs <;> rfl

/-- The search of the disk returns the record it takes, and reads nothing but the sectors up to
it. -/
theorem RootDirectory.Takes.search (h0 : ∀ c ∈ fname, c ≠ 0) (hlen : fname.length ≤ 256)
    {i o : ℕ} (h : v.Takes fname i o) : ∃ n buf log,
    cdromSearch (logged (diskReader disk)) n fname 0 (fun _ => 0) ((), []) =
      some ((v.extent i o, v.fileSize i o), buf, ((), log)) ∧
    log.map Prod.fst = searchReads v.toVolume i := by
  obtain ⟨hi, hhit, hne, hbefore⟩ := h
  have hlt := scanned_lt v.toVolume
  obtain ⟨b, log, h2048, hlog, hsearch⟩ := cdromSearch_disk v fname
  obtain ⟨s, hs, hto⟩ := (scanAt_start (v := v) b ((), log)).reach disk_serves h0 hlen
    (Nat.le_of_lt hi) (fun j hj => by rw [h2048]; exact passedBefore_zero (hbefore j hj))
  obtain ⟨reads, hsec, -⟩ := RootDirectory.search_hit h0 hlen
    (lt_of_lt_of_le hi (scanned_le _)) (sectorBuf_inside v.toVolume i s.val.buf) hhit s.val.fsize
  obtain ⟨t, ht, hcur, hval, -⟩ := hs.settles_found disk_serves hi hsec hne
  obtain ⟨htemp, hfsize⟩ := Prod.mk.inj hval
  obtain ⟨n, hn⟩ := scanDirectory_of_settles (hto t ht)
  obtain ⟨k, hk⟩ := hsearch n _ hn
  obtain ⟨dirLog, hreads, hlbas⟩ := scanDirectory_reads hn rfl
  obtain ⟨htlog, -⟩ := reads_logged hreads
  have hcur' : t.val.cur_dir_lba.toNat = i + 1 := by
    rw [hcur, BitVec.toNat_ofNat, Nat.mod_eq_of_lt (by omega)]
  refine ⟨k, t.val.buf, t.val.dev.2, ?_, ?_⟩
  · rw [hk, if_pos (by rw [htemp]; exact hne), htemp, hfsize]
  · rw [htlog, List.map_append, hlbas, hcur', hlog]
    rfl

theorem search_none (h0 : ∀ c ∈ fname, c ≠ 0) (hlen : fname.length ≤ 256)
    (hnone : ∀ i < v.scanned, ∀ o, v.hit fname i = some o → v.extent i o = 0) : ∃ n buf s,
    cdromSearch (logged (diskReader disk)) n fname 0 (fun _ => 0) ((), []) =
      some ((0, 0), buf, s) := by
  obtain ⟨b, log, h2048, -, hsearch⟩ := cdromSearch_disk v fname
  obtain ⟨s, hs, hto⟩ := (scanAt_start (v := v) b ((), log)).reach disk_serves h0 hlen le_rfl
    (fun j hj => by rw [h2048]; exact passedBefore_zero (hnone j hj))
  obtain ⟨n, hn⟩ := scanDirectory_of_settles (hto s hs.settles_end)
  obtain ⟨k, hk⟩ := hsearch n _ hn
  refine ⟨k, s.val.buf, s.val.dev, ?_⟩
  rw [hk, if_neg (not_not_intro hs.temp)]

theorem cdromSearch_unique {δ : Type} {read : Reader δ} {n k : ℕ} {fsize : BitVec 32} {buf : Buf}
    {d : δ} {r r' : (BitVec 32 × BitVec 32) × Buf × δ}
    (h : cdromSearch read n fname fsize buf d = some r)
    (h' : cdromSearch read k fname fsize buf d = some r') : r = r' := by
  have e := cdromSearch_mono (Nat.le_max_left n k) h
  rw [cdromSearch_mono (Nat.le_max_right n k) h'] at e
  exact (Option.some.inj e).symm

/-- A search of the disk that returns an extent took it from the first match that has one. -/
theorem takes_of_search (v : RootDirectory disk) (h0 : ∀ c ∈ fname, c ≠ 0)
    (hlen : fname.length ≤ 256) {n : ℕ} {lba size : BitVec 32} {buf : Buf} {s : Unit × Log}
    (h : cdromSearch (logged (diskReader disk)) n fname 0 (fun _ => 0) ((), []) =
      some ((lba, size), buf, s)) (hlba : lba ≠ 0) :
    ∃ i o, v.Takes fname i o ∧ lba = v.extent i o ∧ size = v.fileSize i o ∧
      s.2.map Prod.fst = searchReads v.toVolume i := by
  by_cases hnone : ∀ i < v.scanned, ∀ o, v.hit fname i = some o → v.extent i o = 0
  · obtain ⟨k, b, s', hk⟩ := search_none h0 hlen hnone
    obtain ⟨hres, -⟩ := Prod.mk.inj (cdromSearch_unique h hk)
    exact absurd (congrArg Prod.fst hres) hlba
  · obtain ⟨i, hi, hnot, hbefore⟩ := exists_first hnone
    push Not at hnot
    obtain ⟨o, hhit, hne⟩ := hnot
    have htakes : v.Takes fname i o := ⟨hi, hhit, hne, hbefore⟩
    obtain ⟨k, b, log, hk, hlog⟩ := htakes.search h0 hlen
    obtain ⟨hres, hrest⟩ := Prod.mk.inj (cdromSearch_unique h hk)
    obtain ⟨rfl, rfl⟩ := Prod.mk.inj hres
    refine ⟨i, o, htakes, rfl, rfl, ?_⟩
    rw [(Prod.mk.inj hrest).2]
    exact hlog

end takes

/-! ### What loading the kernel means, and when it happens -/

/-- A kernel file of the disk: the extent and size of a record of the root directory that has the
kernel's name, with or without a version. -/
def KernelFile (disk : Disk) (lba size : BitVec 32) : Prop :=
  ∃ v : RootDirectory disk, ∃ r ∈ v.records,
    Identifies (identifier (v.sector r.1) r.2) kernel_name ∧
      lba = v.extent r.1 r.2 ∧ size = v.fileSize r.1 r.2

/-- No read of the run failed or was short: each of the last `n`, those of the image, stored at
least its sector, and each of the others exactly what the buffer holds, its sector. -/
def ReadsWhole (disk : Disk) (n : ℕ) (log : Log) : Prop :=
  ∃ search image, log = search ++ image ∧ image.length = n ∧
    (∀ e ∈ search, Whole disk e) ∧ ∀ e ∈ image, Covers disk e

/-- There is a kernel file, and every run that reaches the kernel has used its first sector as the
header, has its bytes in the kernel area, and has no failed or short read behind it. -/
def KernelLoaded {δ : Type} (read : Reader δ) (fuel : ℕ) (st : Statics) (mem_map : List MemMap)
    (disk : Disk) (d : δ) : Prop :=
  ∃ lba size, KernelFile disk lba size ∧
    ∀ m j, boot (logged read) fuel st mem_map m (d, []) = some (.running j) →
      j.load_size = size ∧ j.header = readHeader (disk lba) ∧
      (∀ k < size.toNat, j.mem (j.lm_data.load_buf.toNat + k) = fileByte disk lba k) ∧
      ReadsWhole disk (sectorCount size).toNat j.dev.2

/-- The record at `o` of sector `i` of the root directory gives the kernel: the search takes it,
it is that of a kernel file or of a copy of one, the drive delivers the sectors that the search
and the loading ask for, and the file ends below 4 GiB. -/
structure LoadsKernel {δ : Type} (read : Reader δ) (mem_map : List MemMap) {disk : Disk}
    (v : RootDirectory disk) (i o : ℕ) (d : δ) : Prop where
  takes : v.Takes kernel_name i o
  kernel : ∃ lba, KernelFile disk lba (v.fileSize i o) ∧
    readHeader (disk lba) = readHeader (disk (v.extent i o)) ∧
    ∀ k < (v.fileSize i o).toNat, fileByte disk lba k = fileByte disk (v.extent i o) k
  answers : ∃ d₁ d₂,
    Answers read (Whole disk) (searchReads v.toVolume i ++ [v.extent i o]) d d₁ ∧
    Answers read (Covers disk) (imageReads (v.extent i o) (v.fileSize i o)) d₁ d₂
  below : ∀ e, firstFit (totalSize (readHeader (disk (v.extent i o)))).toNat mem_map = some e →
    v.fileSize i o = 0 ∨ (pageUp e.base).toNat + (v.fileSize i o).toNat ≤ 2 ^ 32

section loaded

variable {δ : Type} {read : Reader δ} {fuel : ℕ} {st : Statics} {mem_map : List MemMap} {d : δ}
  {disk : Disk}

theorem kernel_name_ne : ∀ c ∈ kernel_name, c ≠ 0 := by decide

theorem kernel_name_length : kernel_name.length ≤ 256 := by decide

theorem Whole.readHeader {lba : BitVec 32} {r : Reply} (h : Whole disk (lba, r)) (buf : Buf) :
    Stage2.readHeader (r.store buf) = Stage2.readHeader (disk lba) := by
  rw [h.store buf]
  exact readHeader_congr (fun x hx => by rw [fullReply_store, if_pos (by omega)])

section run

variable {m : Mem} {j : Jump (δ × Log)} (R : BootRun read fuel mem_map m d j)

include R

theorem BootRun.whole (h : ReadsWhole disk (sectorCount j.load_size).toNat j.dev.2) :
    (∀ e ∈ R.search ++ [(R.lba, R.header)], Whole disk e) ∧ ∀ e ∈ R.image, Covers disk e := by
  obtain ⟨search, image, hlog, hlen, hsearch, himage⟩ := h
  have hcount : R.image.length = (sectorCount j.load_size).toNat := by
    simpa [imageReads] using congrArg List.length R.image_lbas
  rw [R.log_eq] at hlog
  obtain ⟨rfl, rfl⟩ := List.append_inj' hlog (hcount.trans hlen.symm)
  exact ⟨hsearch, himage⟩

theorem BootRun.bytes (hlen : ∀ e ∈ R.image, e.2.words.length < 2 ^ 15)
    (hcov : ∀ e ∈ R.image, Covers disk e)
    (hbelow : j.load_size = 0 ∨ (pageUp R.region.base).toNat + j.load_size.toNat ≤ 2 ^ 32)
    {k : ℕ} (hk : k < j.load_size.toNat) :
    j.mem (j.lm_data.load_buf.toNat + k) = fileByte disk R.lba k := by
  have hdvd := pageUp_mod R.region.base
  have hge := R.load_buf_ge
  have hend : (pageUp R.region.base).toNat + j.load_size.toNat ≤ 2 ^ 32 := by
    cases hbelow with
    | inl hz =>
        rw [hz] at hk
        exact absurd hk (Nat.not_lt_zero k)
    | inr hle => exact hle
  obtain ⟨m₁, hm⟩ := R.stored
  rw [R.load_buf_eq, hm _ (by omega)]
  exact storeSectors_file (by omega) hge hlen R.image_lbas hcov hend hk

theorem BootRun.search_reads : Reads read d R.search R.found := by
  obtain ⟨log, hlog⟩ := cdromSearch_reads R.search_eq
  obtain ⟨rfl, hreads⟩ := reads_logged hlog
  exact hreads

theorem BootRun.reads : Reads read d (R.search ++ [(R.lba, R.header)]) R.ready :=
  reads_append.mpr ⟨R.found, R.search_reads, reads_singleton.mpr R.header_read⟩

end run

/-- The run makes the reads of the record, and the drive answers them. -/
theorem LoadsKernel.reads {m : Mem} {j : Jump (δ × Log)} {v : RootDirectory disk} {i o : ℕ}
    (h : LoadsKernel read mem_map v i o d) (R : BootRun read fuel mem_map m d j) :
    R.lba = v.extent i o ∧ j.load_size = v.fileSize i o ∧
      (∀ e ∈ R.search ++ [(R.lba, R.header)], Whole disk e) ∧ ∀ e ∈ R.image, Covers disk e := by
  obtain ⟨d₁, d₂, ⟨log, hlog, hlbas, hwhole⟩, ⟨image, himage, hilbas, hcov⟩⟩ := h.answers
  obtain ⟨n, buf, slog, hdisk, hslog⟩ := h.takes.search kernel_name_ne kernel_name_length
  obtain ⟨search, header, rfl, hsl, hhl⟩ := List.map_eq_append_iff.mp hlbas
  obtain ⟨found, hfound, hready⟩ := reads_append.mp hlog
  obtain ⟨u, hu, hur, hul⟩ := (disk_follows read d).search hdisk
    ⟨found, search, hfound, hsl.trans hslog.symm,
      fun e he => hwhole e (List.mem_append_left _ he)⟩ (e := (d, [])) ⟨rfl, rfl⟩
  obtain ⟨hres, hstate⟩ := Prod.mk.inj (cdromSearch_unique R.search_eq hu)
  obtain ⟨hlba, hsize⟩ := Prod.mk.inj hres
  obtain ⟨hsearch, rfl⟩ := hfound.unique R.search_reads (by
    rw [hsl, ← hslog, ← hul, ← (Prod.mk.inj hstate).2])
  have hread : Reads read R.found [(R.lba, R.header)] R.ready :=
    reads_singleton.mpr R.header_read
  obtain ⟨hheader, rfl⟩ := hready.unique hread (by
    rw [hhl, ← hlba]
    rfl)
  obtain ⟨rfl, -⟩ := himage.unique R.image_reads (by rw [hilbas, R.image_lbas, hlba, hsize])
  rw [hsearch, hheader] at hwhole
  exact ⟨hlba, hsize, hwhole, hcov⟩

variable (hshort : ∀ lba d r d', read lba d = some (r, d') → r.words.length < 2 ^ 15)

include hshort

theorem image_short {m : Mem} {j : Jump (δ × Log)} (R : BootRun read fuel mem_map m d j) :
    ∀ e ∈ R.image, e.2.words.length < 2 ^ 15 := by
  intro e he
  obtain ⟨b, b', hr⟩ := R.image_reads.mem he
  exact hshort _ _ _ _ hr

/-- A byte of the file at or above 4 GiB keeps what the memory held before. -/
theorem KernelLoaded.below {m₀ : Mem} {j₀ : Jump (δ × Log)}
    (hrun : boot (logged read) fuel st mem_map m₀ (d, []) = some (.running j₀))
    (R : BootRun read fuel mem_map m₀ d j₀) {lba : BitVec 32}
    (hruns : ∀ m j, boot (logged read) fuel st mem_map m (d, []) = some (.running j) →
      j.load_size = j₀.load_size ∧ j.header = readHeader (disk lba) ∧
      (∀ k < j₀.load_size.toNat,
        j.mem (j.lm_data.load_buf.toNat + k) = fileByte disk lba k) ∧
      ReadsWhole disk (sectorCount j₀.load_size).toNat j.dev.2) :
    j₀.load_size = 0 ∨ (pageUp R.region.base).toNat + j₀.load_size.toNat ≤ 2 ^ 32 := by
  by_contra hover
  rw [not_or, Nat.not_le] at hover
  have hpos : 0 < j₀.load_size.toNat :=
    Nat.pos_of_ne_zero fun hz => hover.1 (BitVec.eq_of_toNat_eq hz)
  have hx : ∃ k < j₀.load_size.toNat, 2 ^ 32 ≤ (pageUp R.region.base).toNat + k :=
    ⟨j₀.load_size.toNat - 1, by omega, by omega⟩
  obtain ⟨k, hk, hx⟩ := hx
  obtain ⟨j, hj, -⟩ := boot_any hrun (fun _ => fileByte disk lba k + 1)
  obtain ⟨-, hheader, hbytes, -⟩ := hruns _ j hj
  obtain ⟨R'⟩ := bootRun hj
  have hregion : some R'.region = some R.region := by
    rw [← R'.region_eq, ← R.region_eq, hheader, (hruns m₀ j₀ hrun).2.1]
  have hb := hbytes k hk
  rw [R'.load_buf_eq, Option.some.inj hregion, R'.high (image_short hshort R') _ hx] at hb
  have hne : fileByte disk lba k + 1 ≠ fileByte disk lba k := by simp
  exact hne hb

theorem KernelLoaded.loads {m₀ : Mem} {j₀ : Jump (δ × Log)}
    (hrun : boot (logged read) fuel st mem_map m₀ (d, []) = some (.running j₀))
    (h : KernelLoaded read fuel st mem_map disk d) :
    ∃ (v : RootDirectory disk) (i o : ℕ), LoadsKernel read mem_map v i o d := by
  obtain ⟨lba, size, hfile, hruns⟩ := h
  obtain ⟨R⟩ := bootRun hrun
  obtain ⟨rfl, hheader, hbytes, hreads⟩ := hruns m₀ j₀ hrun
  obtain ⟨hsearch, himage⟩ := R.whole hreads
  have hsame : j₀.header = readHeader (disk R.lba) :=
    R.header_eq.trans (Whole.readHeader (hsearch _ (by simp)) R.buf)
  have hbelow := KernelLoaded.below hshort hrun R hruns
  obtain ⟨s, hdisk, hlbas⟩ := follows_disk.search R.search_eq
    (fun e he => hsearch e (List.mem_append_left _ he)) (e := ((), [])) rfl
  obtain ⟨v, -⟩ := id hfile
  obtain ⟨i, o, htakes, hlba, hsize, hlog⟩ :=
    takes_of_search v kernel_name_ne kernel_name_length hdisk R.lba_ne
  refine ⟨v, i, o, htakes, ?_, ⟨R.ready, j₀.dev.1, ?_, ?_⟩, ?_⟩
  · rw [← hsize, ← hlba]
    refine ⟨lba, hfile, hheader.symm.trans hsame, ?_⟩
    intro k hk
    rw [← hbytes k hk]
    exact R.bytes (image_short hshort R) himage hbelow hk
  · refine ⟨_, R.reads, ?_, hsearch⟩
    rw [List.map_append, ← hlbas, hlog, ← hlba]
    rfl
  · rw [← hsize, ← hlba]
    exact ⟨R.image, R.image_reads, R.image_lbas, himage⟩
  · intro e he
    rw [← hlba, ← hsame, R.region_eq, Option.some.injEq] at he
    rw [← hsize, ← he]
    exact hbelow

theorem LoadsKernel.loaded {v : RootDirectory disk} {i o : ℕ}
    (h : LoadsKernel read mem_map v i o d) : KernelLoaded read fuel st mem_map disk d := by
  obtain ⟨lba, hfile, hsame, hbytes⟩ := h.kernel
  refine ⟨lba, v.fileSize i o, hfile, ?_⟩
  intro m j hj
  obtain ⟨R⟩ := bootRun hj
  obtain ⟨hlba, hsize, hwhole, hcov⟩ := h.reads R
  have hheader : j.header = readHeader (disk (v.extent i o)) := by
    rw [← hlba]
    exact R.header_eq.trans (Whole.readHeader (hwhole _ (by simp)) R.buf)
  have hbelow := h.below R.region (by rw [← hheader]; exact R.region_eq)
  rw [← hsize] at hbelow hbytes ⊢
  refine ⟨rfl, hheader.trans hsame.symm, ?_, R.search ++ [(R.lba, R.header)], R.image, R.log_eq,
    ?_, hwhole, hcov⟩
  · intro k hk
    rw [R.bytes (image_short hshort R) hcov hbelow hk, hbytes k hk, hlba]
  · simpa [imageReads] using congrArg List.length R.image_lbas

end loaded

theorem cdromReadSector_short {δ : Type} {dev : Device δ} {fuel : ℕ} {cd : Cdrom}
    (lba : BitVec 32) (d : δ) (r : Reply) (d' : δ)
    (h : cdromReadSector dev fuel cd lba d = some (r, d')) : r.words.length < 2 ^ 15 := by
  have hlt := r.rd_size.isLt
  rw [cdromReadSector_length h]
  omega

theorem kernelFile_potato : KernelFile potatoDisk 30 2049 :=
  ⟨potatoRoot, (0, 0), by decide, Or.inl (by decide), by decide, by decide⟩

end Ziemniak.Stage2
