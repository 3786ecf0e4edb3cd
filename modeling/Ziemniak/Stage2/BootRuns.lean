import Ziemniak.Stage2.Loading

/-! # Runs of the loader

What happens in a run of `main` that reaches the kernel (`boot_running`), whatever the drive
answers: the reads of the image, and the memory as the stores of what was read
(`loadSectors_reads`).  Neither the reads nor the end of the run depend on what the memory held
(`boot_any`).  Where every read of the image delivered its sector, the kernel area holds the file,
as far as it lies below 4 GiB (`storeSectors_bytes`).

The module ends with a small disk and a run on it. -/

namespace Ziemniak.Stage2

open BareMetal

/-- Byte `k` of the file that starts at `lba`. -/
def fileByte (disk : Disk) (lba : BitVec 32) (k : ℕ) : BitVec 8 :=
  disk (lba + BitVec.ofNat 32 (k / 2048)) (k % 2048)

theorem readHeader_congr {b c : Buf} (h : ∀ x < 80, b x = c x) : readHeader b = readHeader c := by
  unfold readHeader
  simp only [KernelHeader.mk.injEq]
  refine ⟨?_, ?_, ?_, ?_, ?_, ?_, ?_, ?_, ?_, ?_⟩ <;>
    exact read64_congr (fun x _ hx => h x (by omega))

/-! ### The reads of the image -/

/-- A read that stored at least its sector. -/
def Covers (disk : Disk) (e : BitVec 32 × Reply) : Prop := sectorWords (disk e.1) <+: e.2.words

/-- The sectors of the image, in order. -/
def imageReads (lba size : BitVec 32) : List (BitVec 32) :=
  (List.range (sectorCount size).toNat).map (fun k => lba + BitVec.ofNat 32 k)

/-- The stores of what the reads of the image delivered. -/
def storeSectors (load_buf : BitVec 64) (image : Log) (m : Mem) : Mem :=
  image.zipIdx.foldl
    (fun m e => storeWords m (sectorPtr load_buf (BitVec.ofNat 32 e.2)) e.1.2.words) m

theorem storeSectors_concat (load_buf : BitVec 64) (image : Log) (e : BitVec 32 × Reply)
    (m : Mem) : storeSectors load_buf (image ++ [e]) m =
      storeWords (storeSectors load_buf image m)
        (sectorPtr load_buf (BitVec.ofNat 32 image.length)) e.2.words := by
  unfold storeSectors
  rw [List.zipIdx_append, List.foldl_append]
  simp

theorem map_range_concat (lba : BitVec 32) {image : Log} {e : BitVec 32 × Reply}
    (h : (image ++ [e]).map Prod.fst =
      (List.range (image ++ [e]).length).map (fun k => lba + BitVec.ofNat 32 k)) :
    image.map Prod.fst = (List.range image.length).map (fun k => lba + BitVec.ofNat 32 k) ∧
      e.1 = lba + BitVec.ofNat 32 image.length := by
  rw [List.length_append, List.length_singleton, List.range_succ, List.map_append,
    List.map_append] at h
  obtain ⟨h₁, h₂⟩ := List.append_inj' h rfl
  exact ⟨h₁, by simpa using h₂⟩

section image

variable {δ : Type} {read : Reader δ}

/-- The loop reads the sectors of the image, and the memory is what these reads stored. -/
theorem loadSectors_reads {fuel : ℕ} {lba size : BitVec 32} {load_buf : BitVec 64} {m m' : Mem}
    {d d' : δ} (h : loadSectors read fuel lba load_buf size m d = some (m', d')) :
    ∃ image, Reads read d image d' ∧ image.map Prod.fst = imageReads lba size ∧
      m' = storeSectors load_buf image m := by
  have hlt := (sectorCount size).isLt
  obtain ⟨⟨n, mem, dev⟩, ht, he⟩ := Option.map_eq_some_iff.mp h
  obtain ⟨rfl, rfl⟩ := Prod.mk.inj he
  obtain ⟨⟨hn, image, hreads, hlbas, hmem⟩, hexit⟩ := whileLoop_invariant
    (I := fun s : BitVec 32 × Mem × δ => s.1.toNat ≤ (sectorCount size).toNat ∧
      ∃ image, Reads read d image s.2.2 ∧
        image.map Prod.fst = (List.range s.1.toNat).map (fun k => lba + BitVec.ofNat 32 k) ∧
        s.2.1 = storeSectors load_buf image m)
    (by
      rintro ⟨i, mem, dev⟩ s' ⟨-, image, hreads, hlbas, rfl⟩ hc hs
      obtain ⟨⟨r, dev'⟩, hr, rfl⟩ := Option.map_eq_some_iff.mp hs
      simp only [decide_eq_true_iff, BitVec.lt_def] at hc
      have hsucc := toNat_succ_of_lt hc hlt
      have hlen : image.length = i.toNat := by simpa using congrArg List.length hlbas
      have hi : BitVec.ofNat 32 i.toNat = i := by simp
      refine ⟨by rw [hsucc]; exact hc, image ++ [(lba + i, r)],
        reads_append.mpr ⟨dev, hreads, reads_singleton.mpr hr⟩, ?_, ?_⟩
      · simp only [hsucc, List.map_append, hlbas, List.range_succ, hi, List.map_cons, List.map_nil]
      · rw [storeSectors_concat, hlen, hi])
    ⟨Nat.zero_le _, [], by rfl, rfl, rfl⟩ ht
  simp only [decide_eq_false_iff_not, BitVec.lt_def] at hexit
  have hcount : n.toNat = (sectorCount size).toNat := by
    simp only at hn
    omega
  exact ⟨image, hreads, by rw [hlbas, hcount, imageReads], hmem⟩

theorem reads_logged {image : Log} {s s' : δ × Log} (h : Reads (logged read) s image s') :
    s'.2 = s.2 ++ image ∧ Reads read s.1 image s'.1 := by
  induction image generalizing s with
  | nil =>
      obtain rfl := h
      exact ⟨(List.append_nil _).symm, rfl⟩
  | cons e image ih =>
      obtain ⟨s₁, hr, hrest⟩ := h
      obtain ⟨hread, hlog⟩ := logged_eq_some.mp hr
      obtain ⟨hlog', hreads⟩ := ih hrest
      exact ⟨by rw [hlog', hlog, List.append_assoc]; rfl, s₁.1, hread, hreads⟩

end image

/-! ### What the reads store -/

section stored

variable {disk : Disk} {lba : BitVec 32} {load_buf : BitVec 64} {m : Mem} {image : Log}

theorem byteOf_of_prefix {ws ws' : List (BitVec 16)} (h : ws <+: ws') {j : ℕ}
    (hj : j < 2 * ws.length) : byteOf ws' j = byteOf ws j := by
  obtain ⟨l, rfl⟩ := h
  unfold byteOf
  rw [List.getD_eq_getElem?_getD, List.getD_eq_getElem?_getD, List.getElem?_append_left (by omega)]

theorem Covers.length {e : BitVec 32 × Reply} (h : Covers disk e) : 1024 ≤ e.2.words.length := by
  have := h.length_le
  rwa [sectorWords_length] at this

/-- Words too many land in the sector behind, which is read later, or behind the image. -/
theorem storeSectors_bytes (hL : 2 ∣ load_buf.toNat) (hge : 0x100000 ≤ load_buf.toNat)
    (hlen : ∀ e ∈ image, e.2.words.length < 2 ^ 15)
    (hlbas : image.map Prod.fst =
      (List.range image.length).map (fun k => lba + BitVec.ofNat 32 k))
    (hcov : ∀ e ∈ image, Covers disk e)
    (hend : load_buf.toNat + 2048 * image.length < 2 ^ 32 + 2048) {k : ℕ}
    (hk : k < 2048 * image.length) (hx : load_buf.toNat + k < 2 ^ 32) :
    storeSectors load_buf image m (load_buf.toNat + k) = fileByte disk lba k := by
  induction image using List.reverseRecOn with
  | nil => exact absurd hk (Nat.not_lt_zero k)
  | append_singleton image e ih =>
      obtain ⟨hlbas', he⟩ := map_range_concat lba hlbas
      have hcov' : sectorWords (disk e.1) <+: e.2.words := hcov e (by simp)
      have hlen' := hlen e (by simp)
      have h1024 := Covers.length (hcov e (by simp))
      have hp := sectorPtr_toNat load_buf (BitVec.ofNat 32 image.length)
      have hi : (BitVec.ofNat 32 image.length).toNat = image.length % 2 ^ 32 :=
        BitVec.toNat_ofNat ..
      have ha : above (sectorPtr load_buf (BitVec.ofNat 32 image.length)) (load_buf.toNat + k) =
          (load_buf.toNat + k + (2 ^ 32 -
            (sectorPtr load_buf (BitVec.ofNat 32 image.length)).toNat)) % 2 ^ 32 := rfl
      rw [List.length_append, List.length_singleton] at hk hend
      rw [storeSectors_concat, storeWords_apply (by omega) (by omega)]
      by_cases hki : 2048 * image.length ≤ k
      · have hq : k / 2048 = image.length := by omega
        have hr : above (sectorPtr load_buf (BitVec.ofNat 32 image.length)) (load_buf.toNat + k) =
            k % 2048 := by omega
        rw [if_pos ⟨hx, by omega⟩, hr,
          byteOf_of_prefix hcov' (by rw [sectorWords_length]; omega),
          byteOf_sectorWords _ (by omega), fileByte, hq, he]
      · rw [if_neg (by omega)]
        exact ih (fun e he => hlen e (List.mem_append_left _ he)) hlbas'
          (fun e he => hcov e (List.mem_append_left _ he)) (by omega) (by omega)

theorem storeSectors_high (hL : 2 ∣ load_buf.toNat)
    (hlen : ∀ e ∈ image, e.2.words.length < 2 ^ 15) {x : ℕ} (hx : 2 ^ 32 ≤ x) :
    storeSectors load_buf image m x = m x := by
  induction image using List.reverseRecOn with
  | nil => rfl
  | append_singleton image e ih =>
      have hlen' := hlen e (by simp)
      have hp := sectorPtr_toNat load_buf (BitVec.ofNat 32 image.length)
      rw [storeSectors_concat, storeWords_apply (by omega) (by omega), if_neg (by omega)]
      exact ih (fun e he => hlen e (List.mem_append_left _ he))

/-- A file that ends below 4 GiB is loaded byte for byte. -/
theorem storeSectors_file {size : BitVec 32} (hL : 2 ∣ load_buf.toNat)
    (hge : 0x100000 ≤ load_buf.toNat) (hlen : ∀ e ∈ image, e.2.words.length < 2 ^ 15)
    (hlbas : image.map Prod.fst = imageReads lba size) (hcov : ∀ e ∈ image, Covers disk e)
    (hend : load_buf.toNat + size.toNat ≤ 2 ^ 32) {k : ℕ} (hk : k < size.toNat) :
    storeSectors load_buf image m (load_buf.toNat + k) = fileByte disk lba k := by
  have hcnt := sectorCount_toNat size
  have hcount : image.length = (sectorCount size).toNat := by
    simpa [imageReads] using congrArg List.length hlbas
  refine storeSectors_bytes hL hge hlen ?_ hcov (by omega) (by omega) (by omega)
  rw [hcount]
  exact hlbas

theorem loadSectors_bytes {fuel : ℕ} {size : BitVec 32} {m' : Mem} (hL : 2 ∣ load_buf.toNat)
    (hge : 0x100000 ≤ load_buf.toNat) (hend : load_buf.toNat + size.toNat ≤ 2 ^ 32)
    (h : loadSectors (diskReader disk) fuel lba load_buf size m () = some (m', ())) {k : ℕ}
    (hk : k < size.toNat) : m' (load_buf.toNat + k) = fileByte disk lba k := by
  obtain ⟨image, hreads, hlbas, rfl⟩ := loadSectors_reads h
  have hwords : ∀ e ∈ image, e.2.words = sectorWords (disk e.1) := by
    intro e he
    obtain ⟨d, d', hr⟩ := hreads.mem he
    have hfull : fullReply (disk e.1) = e.2 := congrArg Prod.fst (Option.some.inj hr)
    rw [← hfull, fullReply]
  refine storeSectors_file hL hge ?_ hlbas ?_ hend hk
  · intro e he
    rw [hwords e he, sectorWords_length]
    norm_num
  · intro e he
    unfold Covers
    rw [hwords e he]

end stored

/-! ### Runs that reach the kernel -/

section runs

variable {δ : Type} {read : Reader δ} {fuel : ℕ} {st : Statics} {mem_map : List MemMap}

theorem boot_running {m : Mem} {d : δ} {j : Jump δ} :
    boot read fuel st mem_map m d = some (.running j) ↔
      ∃ lba size buf d₁ r d₂,
        cdromSearch read fuel kernel_name 0 (fun _ => 0) d = some ((lba, size), buf, d₁) ∧
        lba ≠ 0 ∧ read lba d₁ = some (r, d₂) ∧
        bootKernel read fuel st mem_map (readHeader (r.store buf)) lba size m d₂ =
          some (.running j) := by
  unfold boot
  simp only [Option.bind_eq_bind, Option.bind_eq_some_iff, Option.pure_def]
  constructor
  · rintro ⟨⟨⟨lba, size⟩, buf, d₁⟩, hs, h⟩
    split_ifs at h with h0
    · simp at h
    · obtain ⟨⟨r, d₂⟩, hr, hk⟩ := Option.bind_eq_some_iff.mp h
      exact ⟨lba, size, buf, d₁, r, d₂, hs, h0, hr, hk⟩
  · rintro ⟨lba, size, buf, d₁, r, d₂, hs, h0, hr, hk⟩
    refine ⟨((lba, size), buf, d₁), hs, ?_⟩
    rw [if_neg h0]
    exact Option.bind_eq_some_iff.mpr ⟨(r, d₂), hr, hk⟩

/-- The device's part of the loading does not depend on the memory. -/
theorem loadSectors_any {lba size : BitVec 32} {load_buf : BitVec 64} {m m₁ : Mem} {d d' : δ}
    (h : loadSectors read fuel lba load_buf size m d = some (m₁, d')) (m' : Mem) :
    ∃ m₁', loadSectors read fuel lba load_buf size m' d = some (m₁', d') := by
  obtain ⟨⟨i, mem, dev⟩, ht, he⟩ := Option.map_eq_some_iff.mp h
  obtain ⟨rfl, rfl⟩ := Prod.mk.inj he
  obtain ⟨⟨i', mem', dev'⟩, ht', hR⟩ := whileLoop_rel
    (d := fun s : BitVec 32 × Mem × δ => decide (s.1 < sectorCount size))
    (g := loadSector read lba load_buf)
    (R := fun s s' => s'.1 = s.1 ∧ s'.2.2 = s.2.2)
    (by rintro ⟨i, mem, dev⟩ ⟨i', mem', dev'⟩ ⟨rfl, -⟩; rfl)
    (by
      rintro ⟨i, mem, dev⟩ ⟨i', mem', dev'⟩ t hR hs
      obtain ⟨rfl, rfl⟩ : i' = i ∧ dev' = dev := hR
      obtain ⟨⟨r, dev₁⟩, hr, rfl⟩ := Option.map_eq_some_iff.mp hs
      exact ⟨_, Option.map_eq_some_iff.mpr ⟨(r, dev₁), hr, rfl⟩, rfl, rfl⟩)
    (u := (0, m', d)) ⟨rfl, rfl⟩ ht
  obtain rfl : dev' = dev := hR.2
  exact ⟨mem', Option.map_eq_some_iff.mpr ⟨(i', mem', dev'), ht', rfl⟩⟩

/-- Nor does whether the kernel is reached, nor what is read on the way. -/
theorem boot_any {m : Mem} {d : δ} {j : Jump δ}
    (h : boot read fuel st mem_map m d = some (.running j)) (m' : Mem) :
    ∃ j', boot read fuel st mem_map m' d = some (.running j') ∧ j'.dev = j.dev := by
  obtain ⟨lba, size, buf, d₁, r, d₂, hs, h0, hr, hk⟩ := boot_running.mp h
  obtain ⟨lay, m₁, m₂, d', ha, hb, hl, rfl⟩ := bootKernel_running.mp hk
  obtain ⟨m₁', hb'⟩ := buildTables_any hb m'
  obtain ⟨m₂', hl'⟩ := loadSectors_any hl m₁'
  exact ⟨_, boot_running.mpr ⟨lba, size, buf, d₁, r, d₂, hs, h0, hr,
    bootKernel_running.mpr ⟨lay, m₁', m₂', d', ha, hb', hl', rfl⟩⟩, rfl⟩

/-- A run that reaches the kernel, with its reads: those of the search, the header and the
sectors of the image. -/
structure BootRun (read : Reader δ) (fuel : ℕ) (mem_map : List MemMap) (m : Mem) (d : δ)
    (j : Jump (δ × Log)) where
  lba : BitVec 32
  buf : Buf
  search : Log
  found : δ
  header : Reply
  ready : δ
  image : Log
  region : MemMap
  search_eq : cdromSearch (logged read) fuel kernel_name 0 (fun _ => 0) (d, []) =
    some ((lba, j.load_size), buf, (found, search))
  lba_ne : lba ≠ 0
  header_read : read lba found = some (header, ready)
  header_eq : j.header = readHeader (header.store buf)
  image_reads : Reads read ready image j.dev.1
  image_lbas : image.map Prod.fst = imageReads lba j.load_size
  log_eq : j.dev.2 = (search ++ [(lba, header)]) ++ image
  region_eq : firstFit (totalSize j.header).toNat mem_map = some region
  load_buf_eq : j.lm_data.load_buf = pageUp region.base
  load_buf_ge : 0x100000 ≤ (pageUp region.base).toNat
  stored : ∃ m₁, ∀ x, 0x100000 ≤ x → j.mem x = storeSectors (pageUp region.base) image m₁ x
  high : (∀ e ∈ image, e.2.words.length < 2 ^ 15) → ∀ x, 2 ^ 32 ≤ x → j.mem x = m x

theorem bootRun {m : Mem} {d : δ} {j : Jump (δ × Log)}
    (h : boot (logged read) fuel st mem_map m (d, []) = some (.running j)) :
    Nonempty (BootRun read fuel mem_map m d j) := by
  obtain ⟨lba, size, buf, ⟨found, search⟩, r, ⟨ready, log⟩, hs, h0, hr, hk⟩ := boot_running.mp h
  obtain ⟨lay, m₁, m₂, d', ha, hb, hl, rfl⟩ := bootKernel_running.mp hk
  obtain ⟨hread, rfl⟩ := logged_eq_some.mp hr
  obtain ⟨image, hreads, hlbas, rfl⟩ := loadSectors_reads hl
  obtain ⟨hlog, himage⟩ := reads_logged hreads
  have hge := allocate_load_buf_ge ha
  have hst := st.lm_data_le
  obtain ⟨e, hf, -, rfl⟩ := allocate_eq_some_iff.mp ha
  obtain ⟨hbuf, -, rfl⟩ := builds_iff.mp ⟨fuel, hb⟩
  rw [layout_load_buf] at hge
  have hdvd := pageUp_mod e.base
  exact ⟨{
    lba, buf, search, found, ready, image
    header := r
    region := e
    search_eq := hs
    lba_ne := h0
    header_read := hread
    header_eq := rfl
    image_reads := himage
    image_lbas := hlbas
    log_eq := hlog
    region_eq := hf
    load_buf_eq := rfl
    load_buf_ge := hge
    stored := ⟨_, fun x hx => storeLongModeData_of_le _ _ (by omega)⟩
    high := by
      intro hlen x hx
      have ht := layout_page_tab_dvd (h := readHeader (r.store buf)) (Nat.dvd_of_mod_eq_zero hdvd)
      refine (storeLongModeData_of_le _ _ (by omega)).trans ?_
      rw [layout_load_buf, storeSectors_high (by omega) hlen hx, built_high ht hbuf hx] }⟩

end runs

/-! ### A disk and a run -/

theorem compareFrom_congr {b c : ℕ → BitVec 8} {str : List (BitVec 8)} {i : ℕ}
    (h : ∀ k, i ≤ k → k < i + str.length → b k = c k) :
    compareFrom b i str = compareFrom c i str := by
  induction str generalizing i with
  | nil => rfl
  | cons _ str ih =>
      have h0 : b i = c i := h i le_rfl (by simp)
      have h1 : compareFrom b (i + 1) str = compareFrom c (i + 1) str :=
        ih (fun k hk hk' => h k (by omega) (by rw [List.length_cons]; omega))
      rw [compareFrom, compareFrom, h0, h1]

/-- A small disk image: the volume descriptor in sector 16, a root directory in sector 20 whose
first record is the kernel file, and two sectors of kernel from sector 30 on. -/
def potatoDisk : Disk := fun lba j =>
  if lba = 16 then
    if j = 0 then 1 else if j = 158 then 20 else if j = 167 then 8 else 0
  else if lba = 20 then
    if j = 0 then 44 else if j = 2 then 30 else if j = 10 then 1 else if j = 11 then 8
    else if j = 32 then 10 else if 33 ≤ j then kernel_name.getD (j - 33) 0 else 0
  else if lba = 30 then
    BitVec.ofNat 8 (([smallKernel.start, smallKernel.stext, smallKernel.etext, smallKernel.sdata,
      smallKernel.edata, smallKernel.srodata, smallKernel.erodata, smallKernel.sbss,
      smallKernel.ebss, smallKernel.stack_size].getD (j / 8) 0).toNat / 256 ^ (j % 8))
  else 0

theorem potatoDisk_header : readHeader (potatoDisk 30) = smallKernel := by decide

theorem findDescriptor_first {δ : Type} {read : Reader δ} {buf : Buf} {d d' : δ} {r : Reply}
    (h0 : buf 0 ≠ PVD_SIGNATURE) (hr : read PVD_START d = some (r, d'))
    (h1 : r.store buf 0 = PVD_SIGNATURE) (n : ℕ) :
    findDescriptor read (n + 1) buf d = some (1, r.store buf, d') := by
  have hr' : read (PVD_START + 0) d = some (r, d') := hr
  have hstep : (read (PVD_START + 0) d).map (fun r => ((0 : BitVec 32) + 1, r.1.store buf, r.2)) =
      some (1, r.store buf, d') := by
    rw [hr']
    rfl
  unfold findDescriptor
  rw [whileLoop_succ (by simpa using h0) hstep, whileLoop_of_not (by simpa using h1)]

theorem searchDirectory_first {buf : Buf} {fname : List (BitVec 8)} (h0 : buf 0 ≠ 0)
    (hc : compareStr fname (fun i => buf (0x21 + i)) = 0) (n : ℕ) (fsize : BitVec 32) :
    searchDirectory (n + 1) fsize buf fname = some (read32 buf 2, read32 buf 10) := by
  have hstep : searchRecord buf fname (0, false) = (0, true) := if_pos hc
  have hloop : whileLoop (fun s : BitVec 32 × Bool => !s.2 && buf (DIR_SIZE + s.1).toNat != 0x00)
      (fun s => some (searchRecord buf fname s)) (n + 1) (0, false) = some (0, true) := by
    rw [whileLoop_succ (f := fun s => some (searchRecord buf fname s))
      (by simpa [DIR_SIZE] using h0) (congrArg some hstep), whileLoop_of_not (by simp)]
  unfold searchDirectory
  simp only [hloop, Option.bind_eq_bind, Option.bind_some, if_true]
  rfl

/-- The search of that disk, by any reader that delivers its first two sectors. -/
theorem cdromSearch_potato {δ : Type} (read : Reader δ)
    (hread : ∀ lba, lba = 16 ∨ lba = 20 → ∀ d, ∃ d', read lba d =
      some (fullReply (potatoDisk lba), d')) (n : ℕ) (d : δ) :
    ∃ buf d', cdromSearch read (n + 1) kernel_name 0 (fun _ => 0) d =
      some ((30, 2049), buf, d') := by
  obtain ⟨d₁, h₁⟩ := hread 16 (Or.inl rfl) d
  obtain ⟨d₂, h₂⟩ := hread 20 (Or.inr rfl) d₁
  have hb₁ := fullReply_store (potatoDisk 16) (fun _ => 0)
  have h0 : (fun _ => 0 : Buf) 0 ≠ PVD_SIGNATURE := by decide
  have hfind := findDescriptor_first h0 h₁ (by rw [hb₁]; rfl) n
  generalize (fullReply (potatoDisk 16)).store (fun _ => 0) = b₁ at hb₁ hfind
  have hb₂ := fullReply_store (potatoDisk 20) b₁
  generalize hb : (fullReply (potatoDisk 20)).store b₁ = b₂ at hb₂
  have hloc : read32 b₁ 158 = 20 := by
    rw [read32_congr (c := potatoDisk 16) (fun x _ hx => by rw [hb₁, if_pos (by omega)])]
    decide
  have hsize : read32 b₁ 166 = 2048 := by
    rw [read32_congr (c := potatoDisk 16) (fun x _ hx => by rw [hb₁, if_pos (by omega)])]
    decide
  have hlba : read32 b₂ 2 = 30 := by
    rw [read32_congr (c := potatoDisk 20) (fun x _ hx => by rw [hb₂, if_pos (by omega)])]
    decide
  have hfsize : read32 b₂ 10 = 2049 := by
    rw [read32_congr (c := potatoDisk 20) (fun x _ hx => by rw [hb₂, if_pos (by omega)])]
    decide
  have hcmp : compareStr kernel_name (fun i => b₂ (0x21 + i)) = 0 := by
    rw [compareStr, compareFrom_congr (c := fun i => potatoDisk 20 (0x21 + i)) (fun k _ hk => by
      have hlen : kernel_name.length = 10 := rfl
      rw [hb₂, if_pos (by omega)])]
    decide
  have hne : b₂ 0 ≠ 0 := by
    rw [hb₂, if_pos (by omega)]
    decide
  have hdir := searchDirectory_first hne hcmp n 0
  have h20 : read (20 + 0) d₁ = some (fullReply (potatoDisk 20), d₂) := h₂
  have hscan : scanSector read (n + 1) kernel_name 20
      { cur_dir_lba := 0, temp := 0, fsize := 0, buf := b₁, dev := d₁ } =
      some { cur_dir_lba := 1, temp := 30, fsize := 2049, buf := b₂, dev := d₂ } := by
    unfold scanSector
    simp only [h20, hb, hdir, hlba, hfsize, Option.bind_eq_bind, Option.bind_some, Option.pure_def]
    rfl
  have hloop : scanDirectory read (n + 1) kernel_name 20 1
      { cur_dir_lba := 0, temp := 0, fsize := 0, buf := b₁, dev := d₁ } =
      some { cur_dir_lba := 1, temp := 30, fsize := 2049, buf := b₂, dev := d₂ } := by
    unfold scanDirectory
    rw [whileLoop_succ (by simp) hscan, whileLoop_of_not (by simp)]
  refine ⟨b₂, d₂, ?_⟩
  have hsec : ((2048 : BitVec 32) / BitVec.ofNat 32 CD_SECTOR_SIZE).setWidth 16 = 1 := by decide
  have ho₁ : DIR_OFFSET + DIR_EXT_LOC.toNat = 158 := rfl
  have ho₂ : DIR_OFFSET + DIR_EXT_SIZE.toNat = 166 := rfl
  unfold cdromSearch
  simp only [hfind, ho₁, ho₂, hloc, hsize, hsec, hloop, Option.bind_eq_bind, Option.bind_some]
  rw [if_pos (by decide)]
  rfl

/-- The variables of the driver for the primary slot. -/
def plainCdrom : Cdrom := { io_port := 0x170, ctl_port := 0x376, is_slave := 0 }

def idleDrive : Drive := { drq := false, count := 0, packet := [] }

/-- A run that reaches the kernel on that disk, whether or not its second sector is bad. -/
theorem boot_potato (bad : BitVec 32 → Bool) (h16 : bad 16 = false) (h20 : bad 20 = false)
    (h30 : bad 30 = false) : ∃ n j,
      boot (logged (cdromReadSector (drive potatoDisk bad 0x170) (n + 1) plainCdrom)) (n + 1)
        plainStatics oneRegion (fun _ => 0) (idleDrive, []) = some (.running j) ∧
      (31, if bad 31 then { rd_size := 0, words := [] } else fullReply (potatoDisk 31)) ∈
        j.dev.2 := by
  obtain ⟨n, hn⟩ := bootKernel_reaches (δ := Drive × Log) plainStatics allocate_small
    (regular_small.builds (fun _ => 0)) 30 2049
  have hdrive := cdromReadSector_drive potatoDisk bad n plainCdrom
  have hans : ∀ lba s, ∃ s', logged (cdromReadSector (drive potatoDisk bad 0x170) (n + 1)
      plainCdrom) lba s = some (if bad lba then { rd_size := 0, words := [] }
        else fullReply (potatoDisk lba), s') := by
    intro lba s
    obtain ⟨d, hd⟩ := hdrive lba s.1
    exact ⟨_, Option.map_eq_some_iff.mpr ⟨_, hd, rfl⟩⟩
  obtain ⟨buf, s₁, hs⟩ := cdromSearch_potato
    (logged (cdromReadSector (drive potatoDisk bad 0x170) (n + 1) plainCdrom))
    (by
      intro lba hlba s
      have hb : bad lba = false := by
        cases hlba with
        | inl heq => rw [heq, h16]
        | inr heq => rw [heq, h20]
      obtain ⟨s', hs'⟩ := hans lba s
      rw [hb, if_neg (by decide)] at hs'
      exact ⟨s', hs'⟩) n (idleDrive, [])
  obtain ⟨s₂, hr⟩ := hans 30 s₁
  rw [h30, if_neg (by decide)] at hr
  have hh : readHeader ((fullReply (potatoDisk 30)).store buf) = smallKernel := by
    rw [readHeader_congr (c := potatoDisk 30) (fun x hx => by
      rw [fullReply_store, if_pos (by omega)]), potatoDisk_header]
  obtain ⟨j, hj⟩ := hn _ (fun lba d => ⟨_, hans lba d⟩) (n + 1) (by omega) s₂
  refine ⟨n, j, boot_running.mpr
    ⟨30, 2049, buf, s₁, _, s₂, hs, by decide, hr, by rw [hh]; exact hj⟩, ?_⟩
  obtain ⟨lay, m₁, m₂, s₃, -, -, hl, rfl⟩ := bootKernel_running.mp hj
  obtain ⟨image, hreads, hlbas, -⟩ := loadSectors_reads hl
  obtain ⟨hlog, hreads⟩ := reads_logged hreads
  have hmem : (31 : BitVec 32) ∈ image.map Prod.fst := by
    rw [hlbas]
    decide
  obtain ⟨⟨lba, r⟩, he, rfl⟩ := List.mem_map.mp hmem
  obtain ⟨d, d', hr⟩ := hreads.mem he
  obtain ⟨d'', hd⟩ := hdrive 31 d
  obtain rfl : r = _ := congrArg Prod.fst (Option.some.inj (hr.symm.trans hd))
  rw [hlog]
  exact List.mem_append_right _ he

end Ziemniak.Stage2
