import Ziemniak.BareMetal.Records
import Ziemniak.Stage2.Cdrom

/-! # Searching a directory

`cdrom_search` walks the records of every sector of the root directory.  `cdromSearchM` is the
same search that also notes which record it took its answer from and which bytes of the buffer
it read; forgetting the notes leaves `cdromSearch` (`cdromSearchM_val`).

In a sector that is a chain of records the walk visits them one by one: up to the first one
that matches (`searchDirectoryM_hit`), or to the zero byte behind the last
(`searchDirectoryM_miss`). -/

namespace Ziemniak.Stage2

open BareMetal

/-! ### The search and its notes -/

/-- A value with the record it was taken from and the bytes of the buffer that were read. -/
structure Watched (ρ α : Type) where
  val : α
  record : Option ρ
  reads : List ℕ

/-- The indices of `mem` that `compareFrom` reads. -/
def compareReads (mem : ℕ → BitVec 8) : ℕ → List (BitVec 8) → List ℕ
  | _, [] => []
  | i, c :: str =>
      if c = 0 then []
      else if c ≠ mem i then [i]
      else if i = 256 then [i]
      else i :: compareReads mem (i + 1) str

/-- What one round reads: the length byte for the guard, the name, and the length byte again
when the name did not match. -/
def recordReads (buf : Buf) (fname : List (BitVec 8)) (offset : BitVec 32) : List ℕ :=
  (DIR_SIZE + offset).toNat ::
    ((compareReads (fun i => buf ((DIR_FILENAME + offset).toNat + i)) 0 fname).map
      (fun i => (DIR_FILENAME + offset).toNat + i) ++
      if (searchRecord buf fname (offset, false)).2 then [] else [(DIR_SIZE + offset).toNat])

/-- The bytes of a 32-bit field. -/
def fieldReads (a : ℕ) : List ℕ := List.range' a 4

/-- `searchRecord` with the bytes read so far. -/
def searchRecordM (buf : Buf) (fname : List (BitVec 8)) (s : (BitVec 32 × Bool) × List ℕ) :
    (BitVec 32 × Bool) × List ℕ :=
  (searchRecord buf fname s.1, s.2 ++ recordReads buf fname s.1.1)

/-- The guard of that loop: no record matched, and one begins at the offset. -/
def searchGuard (buf : Buf) (s : BitVec 32 × Bool) : Bool :=
  !s.2 && buf (DIR_SIZE + s.1).toNat != 0x00

def searchWalkM (fuel : ℕ) (buf : Buf) (fname : List (BitVec 8))
    (s : (BitVec 32 × Bool) × List ℕ) : Option ((BitVec 32 × Bool) × List ℕ) :=
  whileLoop (fun s => searchGuard buf s.1) (fun s => some (searchRecordM buf fname s)) fuel s

/-- `searchDirectory` with its notes; the record is the offset in the buffer. -/
def searchDirectoryM (fuel : ℕ) (fsize : BitVec 32) (buf : Buf) (fname : List (BitVec 8)) :
    Option (Watched (BitVec 32) (BitVec 32 × BitVec 32)) := do
  let ((offset, found), reads) ← searchWalkM fuel buf fname ((0, false), [])
  if found then
    return {
      val := (read32 buf (DIR_EXT_LOC + offset).toNat, read32 buf (DIR_EXT_SIZE + offset).toNat)
      record := some offset
      reads := reads ++ fieldReads (DIR_EXT_SIZE + offset).toNat ++
        fieldReads (DIR_EXT_LOC + offset).toNat }
  else
    return { val := (0, fsize), record := none, reads := reads ++ [(DIR_SIZE + offset).toNat] }

section search

variable {δ : Type} (read : Reader δ)

/-- `scanSector` with its notes; the record is the number of the sector and the offset. -/
def scanSectorM (fuel : ℕ) (fname : List (BitVec 8)) (dir_lba : BitVec 32)
    (s : Watched (BitVec 32 × BitVec 32) (DirScan δ)) :
    Option (Watched (BitVec 32 × BitVec 32) (DirScan δ)) := do
  let (r, d) ← read (dir_lba + s.val.cur_dir_lba) s.val.dev
  let buf := r.store s.val.buf
  let w ← searchDirectoryM fuel s.val.fsize buf fname
  return {
    val := {
      cur_dir_lba := s.val.cur_dir_lba + 1, temp := w.val.1, fsize := w.val.2, buf, dev := d }
    record := w.record.map (fun offset => (s.val.cur_dir_lba, offset))
    reads := s.reads ++ w.reads }

def scanGuard (dir_sectors : BitVec 16) (s : DirScan δ) : Bool :=
  s.temp == 0 && decide (s.cur_dir_lba < dir_sectors.setWidth 32)

def scanDirectoryM (fuel : ℕ) (fname : List (BitVec 8)) (dir_lba : BitVec 32)
    (dir_sectors : BitVec 16) (s : Watched (BitVec 32 × BitVec 32) (DirScan δ)) :
    Option (Watched (BitVec 32 × BitVec 32) (DirScan δ)) :=
  whileLoop (fun s => scanGuard dir_sectors s.val) (scanSectorM read fuel fname dir_lba) fuel s

/-- The scan before its first round, and what was read of the descriptor. -/
def scanStart (fsize : BitVec 32) (buf : Buf) (d : δ) :
    Watched (BitVec 32 × BitVec 32) (DirScan δ) where
  val := { cur_dir_lba := 0, temp := 0, fsize, buf, dev := d }
  record := none
  reads := 0 :: (fieldReads (DIR_OFFSET + DIR_EXT_LOC.toNat) ++
    fieldReads (DIR_OFFSET + DIR_EXT_SIZE.toNat))

/-- What is returned behind the last round. -/
def searchResult (s : Watched (BitVec 32 × BitVec 32) (DirScan δ)) :
    Watched (BitVec 32 × BitVec 32) ((BitVec 32 × BitVec 32) × Buf × δ) :=
  if s.val.temp ≠ 0 then { s with val := ((s.val.temp, s.val.fsize), s.val.buf, s.val.dev) }
  else { val := ((0, 0), s.val.buf, s.val.dev), record := none, reads := s.reads }

/-- `cdromSearch` with its notes.  The loop that looks for the descriptor reads byte 0 of the
buffer alone. -/
def cdromSearchM (fuel : ℕ) (fname : List (BitVec 8)) (fsize : BitVec 32) (buf : Buf) (d : δ) :
    Option (Watched (BitVec 32 × BitVec 32) ((BitVec 32 × BitVec 32) × Buf × δ)) := do
  let (_, buf, d) ← findDescriptor read fuel buf d
  let dir_lba := read32 buf (DIR_OFFSET + DIR_EXT_LOC.toNat)
  let dir_size := read32 buf (DIR_OFFSET + DIR_EXT_SIZE.toNat)
  let dir_sectors := (dir_size / BitVec.ofNat 32 CD_SECTOR_SIZE).setWidth 16
  let s ← scanDirectoryM read fuel fname dir_lba dir_sectors (scanStart fsize buf d)
  return searchResult s

end search

theorem searchWalkM_val (fuel : ℕ) (buf : Buf) (fname : List (BitVec 8)) (s : BitVec 32 × Bool)
    (reads : List ℕ) : (searchWalkM fuel buf fname (s, reads)).map Prod.fst = whileLoop
      (fun s : BitVec 32 × Bool => !s.2 && buf (DIR_SIZE + s.1).toNat != 0x00)
      (fun s => some (searchRecord buf fname s)) fuel s :=
  whileLoop_map Prod.fst (fun _ => rfl) (fun _ => rfl) fuel (s, reads)

theorem searchDirectoryM_val (fuel : ℕ) (fsize : BitVec 32) (buf : Buf)
    (fname : List (BitVec 8)) :
    (searchDirectoryM fuel fsize buf fname).map Watched.val =
      searchDirectory fuel fsize buf fname := by
  unfold searchDirectoryM searchDirectory
  rw [← searchWalkM_val fuel buf fname (0, false) []]
  simp only [Option.bind_eq_bind, Option.map_bind, Option.bind_map]
  congr 1
  funext s
  obtain ⟨⟨offset, found⟩, reads⟩ := s
  cases found <;> rfl

section val

variable {δ : Type} (read : Reader δ)

theorem scanSectorM_val (fuel : ℕ) (fname : List (BitVec 8)) (dir_lba : BitVec 32)
    (s : Watched (BitVec 32 × BitVec 32) (DirScan δ)) :
    (scanSectorM read fuel fname dir_lba s).map Watched.val =
      scanSector read fuel fname dir_lba s.val := by
  unfold scanSectorM scanSector
  simp only [← searchDirectoryM_val, Option.bind_eq_bind, Option.map_bind, Option.bind_map]
  congr 1
  funext r
  exact Option.map_bind

theorem scanDirectoryM_val (fuel : ℕ) (fname : List (BitVec 8)) (dir_lba : BitVec 32)
    (dir_sectors : BitVec 16) (s : Watched (BitVec 32 × BitVec 32) (DirScan δ)) :
    (scanDirectoryM read fuel fname dir_lba dir_sectors s).map Watched.val =
      scanDirectory read fuel fname dir_lba dir_sectors s.val :=
  whileLoop_map Watched.val (fun _ => rfl) (scanSectorM_val read fuel fname dir_lba) fuel s

theorem cdromSearchM_val (fuel : ℕ) (fname : List (BitVec 8)) (fsize : BitVec 32) (buf : Buf)
    (d : δ) : (cdromSearchM read fuel fname fsize buf d).map Watched.val =
      cdromSearch read fuel fname fsize buf d := by
  unfold cdromSearchM cdromSearch
  simp only [Option.bind_eq_bind, Option.map_bind]
  congr 1
  funext r
  obtain ⟨n, b, d'⟩ := r
  have hscan := scanDirectoryM_val read fuel fname
    (read32 b (DIR_OFFSET + DIR_EXT_LOC.toNat))
    ((read32 b (DIR_OFFSET + DIR_EXT_SIZE.toNat) / BitVec.ofNat 32 CD_SECTOR_SIZE).setWidth 16)
    (scanStart fsize b d')
  unfold scanStart at hscan ⊢
  simp only [Function.comp_apply, Option.map_bind, ← hscan, Option.bind_map]
  congr 1
  funext s
  change some (searchResult s).val = _
  unfold searchResult
  split_ifs <;> rfl

end val

section more

variable {δ : Type} {n k : ℕ} {fname : List (BitVec 8)} {fsize : BitVec 32} {buf : Buf}

theorem searchDirectoryM_mono (hnk : n ≤ k) {w : Watched (BitVec 32) (BitVec 32 × BitVec 32)}
    (h : searchDirectoryM n fsize buf fname = some w) :
    searchDirectoryM k fsize buf fname = some w := by
  unfold searchDirectoryM at h ⊢
  simp only [Option.bind_eq_bind, Option.bind_eq_some_iff] at h ⊢
  obtain ⟨t, ht, hw⟩ := h
  exact ⟨t, whileLoop_mono hnk ht, hw⟩

theorem cdromSearchM_mono {read read' : Reader δ}
    (hread : ∀ lba d r, read lba d = some r → read' lba d = some r) (hnk : n ≤ k) {d : δ}
    {w : Watched (BitVec 32 × BitVec 32) ((BitVec 32 × BitVec 32) × Buf × δ)}
    (h : cdromSearchM read n fname fsize buf d = some w) :
    cdromSearchM read' k fname fsize buf d = some w := by
  unfold cdromSearchM at h ⊢
  simp only [Option.bind_eq_bind, Option.bind_eq_some_iff] at h ⊢
  obtain ⟨t, ht, s, hs, hw⟩ := h
  refine ⟨t, whileLoop_le ?_ hnk ht, s, whileLoop_le ?_ hnk hs, hw⟩
  · intro a b hab
    obtain ⟨r, hr, rfl⟩ := Option.map_eq_some_iff.mp hab
    exact Option.map_eq_some_iff.mpr ⟨r, hread _ _ _ hr, rfl⟩
  · intro a b hab
    unfold scanSectorM at hab ⊢
    simp only [Option.bind_eq_bind, Option.bind_eq_some_iff] at hab ⊢
    obtain ⟨u, hu, v, hv, hb⟩ := hab
    exact ⟨u, hread _ _ _ hu, v, searchDirectoryM_mono hnk hv, hb⟩

end more

/-! ### Comparing a name -/

theorem compareFrom_eq_zero {mem : ℕ → BitVec 8} {str : List (BitVec 8)} (h0 : ∀ c ∈ str, c ≠ 0)
    {i : ℕ} (hi : i ≤ 256) : compareFrom mem i str = 0 ↔
      i + str.length ≤ 256 ∧ bytesAt mem i str.length = str := by
  induction str generalizing i with
  | nil => simpa [compareFrom, bytesAt] using hi
  | cons c str ih =>
      obtain ⟨hc, hstr⟩ := List.forall_mem_cons.mp h0
      rw [compareFrom, if_neg hc, List.length_cons, bytesAt, List.cons.injEq]
      by_cases hm : c = mem i
      · rw [if_neg (not_not_intro hm)]
        by_cases h256 : i = 256
        · rw [if_pos h256]
          omega
        · rw [if_neg h256, ih hstr (by omega), eq_true hm.symm, true_and, Nat.add_assoc,
            Nat.add_comm 1]
      · rw [if_pos hm]
        simp [Ne.symm hm]

theorem compareReads_le {mem : ℕ → BitVec 8} {str : List (BitVec 8)} (h0 : ∀ c ∈ str, c ≠ 0)
    {i z : ℕ} (hz : mem z = 0) (hi : i ≤ z) : ∀ x ∈ compareReads mem i str, x ≤ z := by
  induction str generalizing i with
  | nil => simp [compareReads]
  | cons c str ih =>
      obtain ⟨hc, hstr⟩ := List.forall_mem_cons.mp h0
      rw [compareReads, if_neg hc]
      split_ifs with hm h256
      · simpa using hi
      · simpa using hi
      · have hne : i ≠ z := by
          rintro rfl
          exact hc ((not_not.mp hm).trans hz)
        intro x hx
        cases hx with
        | head => exact hi
        | tail _ hx => exact ih hstr (by omega) x hx

/-- The name at the record at `o` begins with `fname`, whatever follows it in the buffer. -/
def MatchAt (buf : Buf) (fname : List (BitVec 8)) (o : ℕ) : Prop :=
  fname.length ≤ 256 ∧ bytesAt buf (o + 0x21) fname.length = fname

instance (buf : Buf) (fname : List (BitVec 8)) (o : ℕ) : Decidable (MatchAt buf fname o) :=
  inferInstanceAs (Decidable (_ ∧ _))

theorem field_toNat (k : BitVec 32) {o : ℕ} (hk : k.toNat < 256) (ho : o ≤ 2048) :
    (k + BitVec.ofNat 32 o).toNat = o + k.toNat := by
  rw [toNat_add_ofNat (by omega), Nat.add_comm]

theorem searchRecord_eq {buf : Buf} {fname : List (BitVec 8)} (h0 : ∀ c ∈ fname, c ≠ 0) {o : ℕ}
    (ho : o ≤ 2048) : searchRecord buf fname (BitVec.ofNat 32 o, false) =
      if MatchAt buf fname o then (BitVec.ofNat 32 o, true)
      else (BitVec.ofNat 32 (o + (buf o).toNat), false) := by
  have hoff : ∀ i, (DIR_FILENAME + BitVec.ofNat 32 o).toNat + i = o + 0x21 + i := by
    intro i
    rw [field_toNat _ (by decide) ho]
    rfl
  have hsize : (DIR_SIZE + BitVec.ofNat 32 o).toNat = o := field_toNat _ (by decide) ho
  have hm : compareStr fname (fun i => buf (o + 0x21 + i)) = 0 ↔ MatchAt buf fname o := by
    rw [compareStr, compareFrom_eq_zero h0 (Nat.zero_le _), bytesAt_shift, Nat.zero_add]
    rfl
  unfold searchRecord
  simp only [hoff, hsize, hm]
  congr 2
  apply BitVec.eq_of_toNat_eq
  simp [BitVec.toNat_add]

/-! ### The walk over a sector -/

theorem recordReads_lt {buf : Buf} {fname : List (BitVec 8)} (h0 : ∀ c ∈ fname, c ≠ 0) {o z : ℕ}
    (ho : o + 0x21 ≤ z) (hz : z < 2048) (hz0 : buf z = 0) :
    ∀ y ∈ recordReads buf fname (BitVec.ofNat 32 o), y < 2048 := by
  have hsize : (DIR_SIZE + BitVec.ofNat 32 o).toNat = o := field_toNat _ (by decide) (by omega)
  have hname : (DIR_FILENAME + BitVec.ofNat 32 o).toNat = o + 0x21 :=
    field_toNat _ (by decide) (by omega)
  have hmem : buf (o + 0x21 + (z - (o + 0x21))) = 0 := by
    rw [Nat.add_sub_cancel' ho]
    exact hz0
  have hcmp : ∀ i ∈ compareReads (fun i => buf (o + 0x21 + i)) 0 fname, i ≤ z - (o + 0x21) :=
    compareReads_le h0 hmem (Nat.zero_le _)
  intro y hy
  unfold recordReads at hy
  rw [hsize, hname, List.mem_cons, List.mem_append, List.mem_map] at hy
  rcases hy with rfl | ⟨i, hi, rfl⟩ | hy
  · omega
  · have := hcmp i hi
    omega
  · split_ifs at hy with hm
    · cases hy
    · rw [List.mem_singleton] at hy
      omega

section walk

variable {buf : Buf} {fname : List (BitVec 8)}

theorem searchGuard_record {o : ℕ} (ho : o ≤ 2048) (hne : buf o ≠ 0) :
    searchGuard buf (BitVec.ofNat 32 o, false) = true := by
  have hsize : (DIR_SIZE + BitVec.ofNat 32 o).toNat = o := field_toNat _ (by decide) ho
  simpa [searchGuard, hsize] using hne

theorem searchWalkM_stop {s : BitVec 32 × Bool} (h : searchGuard buf s = false) (n : ℕ)
    (reads : List ℕ) : searchWalkM n buf fname (s, reads) = some (s, reads) :=
  whileLoop_of_not (c := fun s : (BitVec 32 × Bool) × List ℕ => searchGuard buf s.1) h n

/-- One round, at a record that does not match. -/
theorem searchWalkM_next (h0 : ∀ c ∈ fname, c ≠ 0) {o : ℕ} (ho : o ≤ 2048) (hne : buf o ≠ 0)
    (hm : ¬ MatchAt buf fname o) (n : ℕ) (reads : List ℕ) :
    searchWalkM (n + 1) buf fname ((BitVec.ofNat 32 o, false), reads) =
      searchWalkM n buf fname ((BitVec.ofNat 32 (o + (buf o).toNat), false),
        reads ++ recordReads buf fname (BitVec.ofNat 32 o)) := by
  have hrec : searchRecord buf fname (BitVec.ofNat 32 o, false) = _ := searchRecord_eq h0 ho
  rw [if_neg hm] at hrec
  have hstep : searchRecordM buf fname ((BitVec.ofNat 32 o, false), reads) =
      ((BitVec.ofNat 32 (o + (buf o).toNat), false),
        reads ++ recordReads buf fname (BitVec.ofNat 32 o)) := by
    unfold searchRecordM
    rw [hrec]
  unfold searchWalkM
  rw [whileLoop_succ (f := fun s => some (searchRecordM buf fname s))
    (searchGuard_record ho hne) (congrArg some hstep)]

theorem searchWalkM_match (h0 : ∀ c ∈ fname, c ≠ 0) {o : ℕ} (ho : o ≤ 2048) (hne : buf o ≠ 0)
    (hm : MatchAt buf fname o) (n : ℕ) (reads : List ℕ) :
    searchWalkM (n + 1) buf fname ((BitVec.ofNat 32 o, false), reads) =
      some ((BitVec.ofNat 32 o, true), reads ++ recordReads buf fname (BitVec.ofNat 32 o)) := by
  have hrec : searchRecord buf fname (BitVec.ofNat 32 o, false) = _ := searchRecord_eq h0 ho
  rw [if_pos hm] at hrec
  have hstep : searchRecordM buf fname ((BitVec.ofNat 32 o, false), reads) =
      ((BitVec.ofNat 32 o, true), reads ++ recordReads buf fname (BitVec.ofNat 32 o)) := by
    unfold searchRecordM
    rw [hrec]
  unfold searchWalkM
  rw [whileLoop_succ (f := fun s => some (searchRecordM buf fname s))
    (searchGuard_record ho hne) (congrArg some hstep)]
  exact searchWalkM_stop rfl n _

/-- The walk over records that do not match. -/
theorem searchWalkM_miss (h0 : ∀ c ∈ fname, c ≠ 0) {least o e : ℕ} {offs : List ℕ}
    (hpos : 0 < least) (hc : Chain (fun x => (buf x).toNat) least 2048 o offs e)
    (hmiss : ∀ x ∈ offs, ¬ MatchAt buf fname x) (n : ℕ) (reads : List ℕ) :
    searchWalkM (n + offs.length) buf fname ((BitVec.ofNat 32 o, false), reads) =
      searchWalkM n buf fname ((BitVec.ofNat 32 e, false),
        reads ++ (offs.flatMap (fun x => recordReads buf fname (BitVec.ofNat 32 x)))) := by
  induction hc generalizing reads with
  | stop o => simp
  | @record o e offs hleast hin rest ih =>
      obtain ⟨hm, hrest⟩ := List.forall_mem_cons.mp hmiss
      have hne : buf o ≠ 0 := by
        intro hz
        rw [hz] at hleast
        exact absurd hleast (Nat.not_le.mpr hpos)
      rw [List.length_cons, ← Nat.add_assoc, searchWalkM_next h0 (by omega) hne hm,
        ih hrest, List.flatMap_cons, List.append_assoc]

/-- The walk up to the first record that matches. -/
theorem searchWalkM_hit (h0 : ∀ c ∈ fname, c ≠ 0) {least o x : ℕ} {pre : List ℕ}
    (hpos : 0 < least) (hc : Chain (fun x => (buf x).toNat) least 2048 o pre x)
    (hmiss : ∀ y ∈ pre, ¬ MatchAt buf fname y) (hx : x ≤ 2048) (hne : buf x ≠ 0)
    (hm : MatchAt buf fname x) (n : ℕ) (reads : List ℕ) :
    searchWalkM (n + 1 + pre.length) buf fname ((BitVec.ofNat 32 o, false), reads) =
      some ((BitVec.ofNat 32 x, true), reads ++
        ((pre ++ [x]).flatMap (fun y => recordReads buf fname (BitVec.ofNat 32 y)))) := by
  rw [searchWalkM_miss h0 hpos hc hmiss, searchWalkM_match h0 hx hne hm, List.append_assoc,
    List.flatMap_append, List.flatMap_singleton]

theorem searchDirectoryM_hit (h0 : ∀ c ∈ fname, c ≠ 0) {x : ℕ} {pre : List ℕ}
    (hc : Chain (fun x => (buf x).toNat) 34 2048 0 pre x)
    (hmiss : ∀ y ∈ pre, ¬ MatchAt buf fname y) (hx : x ≤ 2048) (hne : buf x ≠ 0)
    (hm : MatchAt buf fname x) (fsize : BitVec 32) :
    ∃ reads, (∀ fuel, pre.length < fuel → searchDirectoryM fuel fsize buf fname =
      some ⟨(read32 buf (x + 2), read32 buf (x + 10)), some (BitVec.ofNat 32 x), reads⟩) ∧
      ∀ z < 2048, x + 0x21 ≤ z → buf z = 0 → ∀ y ∈ reads, y < 2048 := by
  have hloc : (DIR_EXT_LOC + BitVec.ofNat 32 x).toNat = x + 2 := field_toNat _ (by decide) hx
  have hsize : (DIR_EXT_SIZE + BitVec.ofNat 32 x).toNat = x + 10 := field_toNat _ (by decide) hx
  refine ⟨(pre ++ [x]).flatMap (fun y => recordReads buf fname (BitVec.ofNat 32 y)) ++
    fieldReads (x + 10) ++ fieldReads (x + 2), ?_, ?_⟩
  · intro fuel hfuel
    obtain ⟨n, rfl⟩ : ∃ n, fuel = n + 1 + pre.length := ⟨fuel - pre.length - 1, by omega⟩
    have hwalk : searchWalkM _ buf fname ((0, false), []) = _ :=
      searchWalkM_hit h0 (by norm_num) hc hmiss hx hne hm n []
    unfold searchDirectoryM
    simp only [hwalk, Option.bind_eq_bind, Option.bind_some, if_true, hloc, hsize, List.nil_append]
    rfl
  · intro z hz hxz hz0 y hy
    rw [List.mem_append, List.mem_append, List.mem_flatMap] at hy
    unfold fieldReads at hy
    simp only [List.mem_range'_1] at hy
    rcases hy with (⟨o, ho, hy⟩ | hy) | hy
    · have hoz : o + 0x21 ≤ z := by
        rcases List.mem_append.mp ho with ho | ho
        · have := hc.mem ho
          omega
        · rw [List.mem_singleton.mp ho]
          exact hxz
      exact recordReads_lt h0 hoz hz hz0 y hy
    · omega
    · omega

theorem searchDirectoryM_miss (h0 : ∀ c ∈ fname, c ≠ 0) {e : ℕ} {offs : List ℕ}
    (hc : Chain (fun x => (buf x).toNat) 34 2048 0 offs e) (he : e ≤ 2048) (hz : buf e = 0)
    (hmiss : ∀ x ∈ offs, ¬ MatchAt buf fname x) (fsize : BitVec 32) :
    ∃ reads, (∀ fuel, offs.length < fuel → searchDirectoryM fuel fsize buf fname =
      some ⟨(0, fsize), none, reads⟩) ∧ (e < 2048 → ∀ y ∈ reads, y < 2048) := by
  have hend : (DIR_SIZE + BitVec.ofNat 32 e).toNat = e := field_toNat _ (by decide) he
  refine ⟨offs.flatMap (fun y => recordReads buf fname (BitVec.ofNat 32 y)) ++ [e], ?_, ?_⟩
  · intro fuel hfuel
    obtain ⟨n, rfl⟩ : ∃ n, fuel = n + offs.length := ⟨fuel - offs.length, by omega⟩
    have hguard : searchGuard buf (BitVec.ofNat 32 e, false) = false := by
      unfold searchGuard
      rw [hend, hz]
      rfl
    have hwalk : searchWalkM _ buf fname ((0, false), []) = _ :=
      (searchWalkM_miss h0 (by norm_num) hc hmiss n []).trans (searchWalkM_stop hguard n _)
    unfold searchDirectoryM
    simp only [hwalk, Option.bind_eq_bind, Option.bind_some, hend, List.nil_append]
    rfl
  · intro hlt y hy
    rw [List.mem_append, List.mem_flatMap, List.mem_singleton] at hy
    rcases hy with ⟨o, ho, hy⟩ | rfl
    · have := hc.mem ho
      exact recordReads_lt h0 (by omega) hlt hz y hy
    · exact hlt

end walk

end Ziemniak.Stage2
