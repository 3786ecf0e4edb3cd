import Ziemniak.Stage2.RootDirectory

/-! # Searching an image

An image gives a sector to some LBAs; a read behind its end fails and leaves the buffer as it is.
A driver that serves an image searches it as the plain reader `imageReader` does, for any device
(`returns_iff_image`).

Against that reader the search is two lookups.  `DescriptorBuf` says which buffer it takes for
the volume descriptor: the one it was given, if that starts with the signature, and otherwise
the first sector from LBA 16 on that does, wherever in the image that is.  `DirAnswer` says which
location and size the records of the directory it names hold for the file.  `returns_iff` puts
the two together. -/

namespace Ziemniak.Stage2

open BareMetal

/-! ### Images -/

/-- The sectors of an image; `none` behind its end. -/
abbrev Image := BitVec 32 → Option (ℕ → BitVec 8)

/-- The first `n` sectors of a disk. -/
def imageUpTo (disk : Disk) (n : ℕ) : Image := fun lba =>
  if lba.toNat < n then some (disk lba) else none

/-- A sector, or a failed read. -/
def imageReply (image : Image) (lba : BitVec 32) : Reply :=
  match image lba with
  | some sector => fullReply sector
  | none => { rd_size := 0, words := [] }

def imageReader (image : Image) : Reader Unit := fun lba _ => some (imageReply image lba, ())

/-- From the states of `Good` on, enough fuel reads the image. -/
def ServesImage {δ : Type} (read : ℕ → Reader δ) (image : Image) (Good : δ → Prop) : Prop :=
  ∀ lba d, Good d → ∃ d', Good d' ∧
    ∃ n, ∀ fuel, n ≤ fuel → read fuel lba d = some (imageReply image lba, d')

/-- More fuel changes nothing in what was read. -/
def FuelMono {δ : Type} (read : ℕ → Reader δ) : Prop :=
  ∀ n k, n ≤ k → ∀ lba d r, read n lba d = some r → read k lba d = some r

/-- The search returns `r`, the LBA and the size. -/
def Returns {δ : Type} (read : ℕ → Reader δ) (fname : List (BitVec 8)) (fsize : BitVec 32)
    (buf : Buf) (d : δ) (r : BitVec 32 × BitVec 32) : Prop :=
  ∃ n b d', ∀ fuel, n ≤ fuel → cdromSearch (read fuel) fuel fname fsize buf d = some (r, b, d')

section simulation

variable {δ : Type} {read : ℕ → Reader δ} {image : Image} {Good : δ → Prop}

theorem ServesImage.eq (hread : ServesImage read image Good) (hmono : FuelMono read) {fuel : ℕ}
    {lba : BitVec 32} {d d' : δ} {r : Reply} (hd : Good d)
    (h : read fuel lba d = some (r, d')) : r = imageReply image lba ∧ Good d' := by
  obtain ⟨d₁, hd₁, n, hn⟩ := hread lba d hd
  have h₁ := hmono _ _ (le_max_left fuel n) lba d _ h
  rw [hn _ (le_max_right fuel n)] at h₁
  obtain ⟨rfl, rfl⟩ := Prod.mk.inj (Option.some.inj h₁)
  exact ⟨rfl, hd₁⟩

/-- The loops over the device and over the image, at the same place. -/
def SameScan (Good : δ → Prop) (s : DirScan Unit) (u : DirScan δ) : Prop :=
  u.cur_dir_lba = s.cur_dir_lba ∧ u.temp = s.temp ∧ u.fsize = s.fsize ∧ u.buf = s.buf ∧ Good u.dev

def SameFind (Good : δ → Prop) (s : BitVec 32 × Buf × Unit) (u : BitVec 32 × Buf × δ) : Prop :=
  u.1 = s.1 ∧ u.2.1 = s.2.1 ∧ Good u.2.2

/-- The image gives what a serving reader gives. -/
theorem ServesImage.follows (hread : ServesImage read image Good) (hmono : FuelMono read)
    (fuel : ℕ) : Follows (read fuel) (imageReader image) (fun _ => True) (fun d _ => Good d) where
  back := fun _ _ _ _ _ _ => trivial
  step := by
    intro lba d r d' e hg hr _
    obtain ⟨rfl, hg'⟩ := hread.eq hmono hg hr
    exact ⟨_, (), rfl, rfl, hg'⟩

theorem findDescriptor_ofImage (hread : ServesImage read image Good) {n : ℕ} {buf b : Buf} {d : δ}
    {k : BitVec 32} (hd : Good d)
    (h : findDescriptor (imageReader image) n buf () = some (k, b, ())) :
    ∃ d', Good d' ∧ ∃ n, ∀ fuel, n ≤ fuel →
      findDescriptor (read fuel) fuel buf d = some (k, b, d') := by
  obtain ⟨⟨k', b', d'⟩, ⟨m, hm⟩, hk, hb, hgood⟩ := whileLoop_settles
    (d := fun s : BitVec 32 × Buf × δ => s.2.1 0 != PVD_SIGNATURE)
    (g := fun fuel s => (read fuel (PVD_START + s.1) s.2.2).map
      (fun r => (s.1 + 1, r.1.store s.2.1, r.2)))
    (R := SameFind Good)
    (by
      rintro ⟨k, b, u⟩ ⟨k', b', d⟩ ⟨-, hb, -⟩
      simp only at hb
      simp only [hb])
    (by
      rintro ⟨k, b, u⟩ ⟨k', b', d⟩ t ⟨rfl, rfl, hg⟩ hstep
      obtain rfl := Option.some.inj hstep
      obtain ⟨d₁, hd₁, m, hm⟩ := hread (PVD_START + k') d hg
      exact ⟨_, ⟨m, fun fuel hfuel => by rw [hm fuel hfuel, Option.map_some]⟩, rfl, rfl, hd₁⟩)
    (u := (0, buf, d)) ⟨rfl, rfl, hd⟩ h
  simp only at hk hb hgood
  subst hk hb
  exact ⟨d', hgood, m, fun fuel hfuel => hm fuel hfuel fuel hfuel⟩

theorem scanDirectory_ofImage (hread : ServesImage read image Good) {fuel : ℕ}
    {fname : List (BitVec 8)} {dir_lba : BitVec 32} {dir_sectors : BitVec 16}
    {s t : DirScan Unit} {u : DirScan δ} (hs : SameScan Good s u)
    (h : scanDirectory (imageReader image) fuel fname dir_lba dir_sectors s = some t) :
    ∃ v, SameScan Good t v ∧ ∃ n, ∀ fuel, n ≤ fuel →
      scanDirectory (read fuel) fuel fname dir_lba dir_sectors u = some v := by
  obtain ⟨v, ⟨n, hn⟩, hv⟩ := whileLoop_settles
    (d := fun s : DirScan δ => s.temp == 0 && decide (s.cur_dir_lba < dir_sectors.setWidth 32))
    (g := fun fuel => scanSector (read fuel) fuel fname dir_lba) (R := SameScan Good)
    (by
      rintro s u ⟨hcur, htemp, -, -, -⟩
      rw [hcur, htemp])
    (by
      rintro s u t ⟨hcur, -, hsize, hbuf, hg⟩ hstep
      unfold scanSector imageReader at hstep
      simp only [Option.bind_eq_bind, Option.bind_some, Option.bind_eq_some_iff, Option.pure_def,
        Option.some.injEq] at hstep
      obtain ⟨w, hw, rfl⟩ := hstep
      obtain ⟨d', hd', n, hn⟩ := hread (dir_lba + s.cur_dir_lba) u.dev hg
      refine ⟨⟨s.cur_dir_lba + 1, w.1, w.2, _, d'⟩, ⟨max n fuel, ?_⟩, rfl, rfl, rfl, rfl, hd'⟩
      intro k hk
      unfold scanSector
      simp only [hcur, hsize, hbuf, hn k (by omega), searchDirectory_mono (by omega : fuel ≤ k) hw,
        Option.bind_eq_bind, Option.bind_some]
      rfl)
    hs h
  exact ⟨v, hv, n, fun fuel hfuel => hn fuel hfuel fuel hfuel⟩

/-- A serving device is searched as its image is. -/
theorem returns_iff_image (hread : ServesImage read image Good) (hmono : FuelMono read)
    {fname : List (BitVec 8)} {fsize : BitVec 32} {buf : Buf} {d : δ} (hd : Good d)
    {r : BitVec 32 × BitVec 32} : Returns read fname fsize buf d r ↔
      ∃ fuel b, cdromSearch (imageReader image) fuel fname fsize buf () = some (r, b, ()) := by
  constructor
  · rintro ⟨n, b, d', hn⟩
    obtain ⟨⟨⟩, h, -⟩ := (hread.follows hmono n).search (hn n le_rfl) trivial (e := ()) hd
    exact ⟨n, b, h⟩
  · rintro ⟨n, b, h⟩
    unfold cdromSearch at h
    simp only [Option.bind_eq_bind, Option.bind_eq_some_iff] at h
    obtain ⟨⟨k, b₁, u⟩, hfind, t, hscan, hres⟩ := h
    obtain ⟨d₁, hd₁, n₁, hn₁⟩ := findDescriptor_ofImage hread hd hfind
    obtain ⟨v, ⟨-, htemp, hsize, hbuf, -⟩, n₂, hn₂⟩ := scanDirectory_ofImage hread
      (u := { cur_dir_lba := 0, temp := 0, fsize, buf := b₁, dev := d₁ })
      ⟨rfl, rfl, rfl, rfl, hd₁⟩ hscan
    refine ⟨max n₁ n₂, v.buf, v.dev, ?_⟩
    intro fuel hfuel
    unfold cdromSearch
    simp only [hn₁ fuel (by omega), Option.bind_eq_bind, Option.bind_some,
      hn₂ fuel (by omega), htemp, hsize]
    split_ifs at hres ⊢ with h0
    · obtain ⟨rfl, -⟩ := Prod.mk.inj (Option.some.inj hres)
      rfl
    · obtain ⟨rfl, -⟩ := Prod.mk.inj (Option.some.inj hres)
      rfl

end simulation

/-! ### The buffer between reads -/

/-- The buffer after `k` reads from `lba` on; a failed read leaves it. -/
def heldBuf (image : Image) (lba : BitVec 32) (buf : Buf) : ℕ → Buf
  | 0 => buf
  | k + 1 => (imageReply image (lba + BitVec.ofNat 32 k)).store (heldBuf image lba buf k)

section held

variable {image : Image} {lba : BitVec 32} {buf : Buf} {k : ℕ}

theorem heldBuf_failed (h : image (lba + BitVec.ofNat 32 k) = none) :
    heldBuf image lba buf (k + 1) = heldBuf image lba buf k := by
  rw [heldBuf, imageReply, h]
  rfl

theorem heldBuf_behind {x : ℕ} (hx : 2048 ≤ x) : heldBuf image lba buf k x = buf x := by
  induction k with
  | zero => rfl
  | succ k ih =>
      cases h : image (lba + BitVec.ofNat 32 k) with
      | none => rw [heldBuf_failed h, ih]
      | some sector => rw [heldBuf, imageReply, h, fullReply_store, if_neg (by omega), ih]

theorem heldBuf_read {sector : ℕ → BitVec 8} (h : image (lba + BitVec.ofNat 32 k) = some sector) :
    heldBuf image lba buf (k + 1) = (fullReply sector).store buf := by
  funext x
  rw [heldBuf, imageReply, h, fullReply_store, fullReply_store]
  split_ifs with hx
  · rfl
  · exact heldBuf_behind (by omega)

end held

/-! ### The descriptor -/

/-- The first sector from LBA 16 on that starts with the signature. -/
structure FirstSignature (image : Image) (k : ℕ) (sector : ℕ → BitVec 8) : Prop where
  read : image (PVD_START + BitVec.ofNat 32 k) = some sector
  signature : sector 0 = PVD_SIGNATURE
  first : ∀ j < k, ∀ s, image (PVD_START + BitVec.ofNat 32 j) = some s → s 0 ≠ PVD_SIGNATURE

/-- The buffer `b` that the search takes for the descriptor. -/
def DescriptorBuf (image : Image) (buf b : Buf) : Prop :=
  buf 0 = PVD_SIGNATURE ∧ b = buf ∨
    buf 0 ≠ PVD_SIGNATURE ∧ ∃ k sector, FirstSignature image k sector ∧
      b = (fullReply sector).store buf

section descriptor

variable {image : Image} {buf b : Buf}

/-- The loop goes through the buffers of successive reads. -/
theorem findDescriptor_iterate (k : ℕ) :
    (fun s : BitVec 32 × Buf × Unit => (s.1 + 1, (imageReply image (PVD_START + s.1)).store s.2.1,
      ()))^[k] (0, buf, ()) = (BitVec.ofNat 32 k, heldBuf image PVD_START buf k, ()) := by
  induction k with
  | zero => rfl
  | succ k ih =>
      have hsucc : BitVec.ofNat 32 k + 1 = BitVec.ofNat 32 (k + 1) := (BitVec.ofNat_add k 1).symm
      rw [Function.iterate_succ_apply', ih, hsucc]
      rfl

theorem findDescriptor_held : (∃ n k, findDescriptor (imageReader image) n buf () =
      some (k, b, ())) ↔ ∃ k, (∀ j < k, heldBuf image PVD_START buf j 0 ≠ PVD_SIGNATURE) ∧
        heldBuf image PVD_START buf k 0 = PVD_SIGNATURE ∧ b = heldBuf image PVD_START buf k := by
  have hends : ∀ k, (∃ n, findDescriptor (imageReader image) n buf () = some (k, b, ())) ↔ _ :=
    fun k => ends_iff_iterate (c := fun s : BitVec 32 × Buf × Unit => s.2.1 0 != PVD_SIGNATURE)
      (g := fun s => (s.1 + 1, (imageReply image (PVD_START + s.1)).store s.2.1, ()))
      (s := (0, buf, ())) (t := (k, b, ()))
  rw [exists_comm]
  simp only [hends, findDescriptor_iterate]
  constructor
  · rintro ⟨off, k, hbefore, hk, he⟩
    refine ⟨k, fun j hj => by simpa using hbefore j hj, by simpa using hk, ?_⟩
    exact congrArg (fun p => p.2.1) he
  · rintro ⟨k, hbefore, hk, rfl⟩
    exact ⟨_, k, fun j hj => by simpa using hbefore j hj, by simpa using hk, rfl⟩

theorem descriptorBuf_iff : (∃ n k, findDescriptor (imageReader image) n buf () =
    some (k, b, ())) ↔ DescriptorBuf image buf b := by
  rw [findDescriptor_held]
  constructor
  · rintro ⟨k, hbefore, hk, rfl⟩
    cases k with
    | zero => exact Or.inl ⟨hk, rfl⟩
    | succ k =>
        refine Or.inr ⟨hbefore 0 (Nat.succ_pos k), k, ?_⟩
        cases h : image (PVD_START + BitVec.ofNat 32 k) with
        | none =>
            rw [heldBuf_failed h] at hk
            exact absurd hk (hbefore k (Nat.lt_succ_self k))
        | some sector =>
            refine ⟨sector, ⟨h, ?_, ?_⟩, heldBuf_read h⟩
            · rw [heldBuf_read h, fullReply_store, if_pos (by omega)] at hk
              exact hk
            · intro j hj s hs
              have hne := hbefore (j + 1) (by omega)
              rw [heldBuf_read hs, fullReply_store, if_pos (by omega)] at hne
              exact hne
  · rintro (⟨h1, rfl⟩ | ⟨h1, k, sector, hsig, hb⟩)
    · exact ⟨0, fun j hj => absurd hj (Nat.not_lt_zero j), h1, rfl⟩
    · have hheld : heldBuf image PVD_START buf (k + 1) = (fullReply sector).store buf :=
        heldBuf_read hsig.read
      refine ⟨k + 1, ?_, ?_, by rw [hheld, hb]⟩
      · intro j hj
        induction j with
        | zero => exact h1
        | succ j ih =>
            cases h : image (PVD_START + BitVec.ofNat 32 j) with
            | none =>
                rw [heldBuf_failed h]
                exact ih (by omega)
            | some s =>
                rw [heldBuf_read h, fullReply_store, if_pos (by omega)]
                exact hsig.first j (by omega) s h
      · rw [hheld, fullReply_store, if_pos (by omega)]
        exact hsig.signature

end descriptor

/-! ### The directory -/

/-- The location and the number of sectors of the directory in a descriptor. -/
def dirLba (b : Buf) : BitVec 32 := read32 b (DIR_OFFSET + DIR_EXT_LOC.toNat)

def dirSectors (b : Buf) : BitVec 16 :=
  (read32 b (DIR_OFFSET + DIR_EXT_SIZE.toNat) / BitVec.ofNat 32 CD_SECTOR_SIZE).setWidth 16

/-- The offset of record `k` of a sector, the lengths before it added in 32 bits. -/
def recordOffset (b : Buf) : ℕ → BitVec 32
  | 0 => 0
  | k + 1 => recordOffset b k + (b (DIR_SIZE + recordOffset b k).toNat).setWidth 32

def recordLength (b : Buf) (k : ℕ) : BitVec 8 := b (DIR_SIZE + recordOffset b k).toNat

/-- Its location and size. -/
def recordExtent (b : Buf) (k : ℕ) : BitVec 32 × BitVec 32 :=
  (read32 b (DIR_EXT_LOC + recordOffset b k).toNat,
    read32 b (DIR_EXT_SIZE + recordOffset b k).toNat)

/-- It has the name. -/
def RecordNamed (fname : List (BitVec 8)) (b : Buf) (k : ℕ) : Prop :=
  compareStr fname (fun i => b ((DIR_FILENAME + recordOffset b k).toNat + i)) = 0

/-- What the records of a sector say of a name: the location and the size in the first record
that has it, or two zeros when a zero length byte comes first. -/
def SectorGives (fname : List (BitVec 8)) (b : Buf) (r : BitVec 32 × BitVec 32) : Prop :=
  ∃ k, (∀ j < k, recordLength b j ≠ 0 ∧ ¬ RecordNamed fname b j) ∧
    (recordLength b k = 0 ∧ r = (0, 0) ∨
      recordLength b k ≠ 0 ∧ RecordNamed fname b k ∧ r = recordExtent b k)

/-- They say no location, so the scan goes on. -/
def SectorPassed (fname : List (BitVec 8)) (b : Buf) : Prop := ∃ size, SectorGives fname b (0, size)

/-- What the `n` sectors of the directory at `lba` say, read one after the other into `b`: the
first location that is not zero, or two zeros. -/
def DirAnswer (image : Image) (fname : List (BitVec 8)) (lba : BitVec 32) (n : ℕ) (b : Buf)
    (r : BitVec 32 × BitVec 32) : Prop :=
  (∃ i < n, (∀ j < i, SectorPassed fname (heldBuf image lba b (j + 1))) ∧
    SectorGives fname (heldBuf image lba b (i + 1)) r ∧ r.1 ≠ 0) ∨
  (∀ j < n, SectorPassed fname (heldBuf image lba b (j + 1))) ∧ r = (0, 0)

section records

variable {fname : List (BitVec 8)} {b : Buf} {k : ℕ}

theorem searchRecord_named (h : RecordNamed fname b k) :
    searchRecord b fname (recordOffset b k, false) = (recordOffset b k, true) := if_pos h

theorem searchRecord_other (h : ¬ RecordNamed fname b k) :
    searchRecord b fname (recordOffset b k, false) = (recordOffset b (k + 1), false) := if_neg h

theorem searchGuard_iff :
    searchGuard b (recordOffset b k, false) = true ↔ recordLength b k ≠ 0 := by
  simp [searchGuard, recordLength]

theorem searchGuard_false_iff :
    searchGuard b (recordOffset b k, false) = false ↔ recordLength b k = 0 := by
  simp [searchGuard, recordLength]

theorem searchRecord_iterate (h : ∀ j < k, ¬ RecordNamed fname b j) :
    (searchRecord b fname)^[k] (0, false) = (recordOffset b k, false) := by
  induction k with
  | zero => rfl
  | succ k ih =>
      rw [Function.iterate_succ_apply', ih (fun j hj => h j (by omega)),
        searchRecord_other (h k (Nat.lt_succ_self k))]

theorem not_named_of_guard
    (h : ∀ j ≤ k, searchGuard b ((searchRecord b fname)^[j] (0, false)) = true) :
    ∀ j < k, ¬ RecordNamed fname b j := by
  induction k with
  | zero => exact fun j hj => absurd hj (Nat.not_lt_zero j)
  | succ k ih =>
      have hbefore := ih (fun j hj => h j (by omega))
      intro j hj
      by_cases hjk : j = k
      · subst hjk
        intro hn
        have hguard := h (j + 1) le_rfl
        rw [Function.iterate_succ_apply', searchRecord_iterate hbefore,
          searchRecord_named hn] at hguard
        exact absurd hguard Bool.false_ne_true
      · exact hbefore j (by omega)

/-- Where the walk of `search_directory` ends. -/
theorem searchWalk_iff {t : BitVec 32 × Bool} :
    Ends (searchGuard b) (fun s => some (searchRecord b fname s)) (0, false) t ↔
      ∃ k, (∀ j < k, recordLength b j ≠ 0 ∧ ¬ RecordNamed fname b j) ∧
        (recordLength b k = 0 ∧ t = (recordOffset b k, false) ∨
          recordLength b k ≠ 0 ∧ RecordNamed fname b k ∧ t = (recordOffset b k, true)) := by
  rw [ends_iff_iterate]
  constructor
  · rintro ⟨n, hgo, hstop, rfl⟩
    cases n with
    | zero =>
        exact ⟨0, fun j hj => absurd hj (Nat.not_lt_zero j),
          Or.inl ⟨(searchGuard_false_iff (k := 0)).mp hstop, rfl⟩⟩
    | succ k =>
        have hother := not_named_of_guard (k := k) (fun j hj => hgo j (by omega))
        have hat : ∀ j ≤ k, (searchRecord b fname)^[j] (0, false) = (recordOffset b j, false) :=
          fun j hj => searchRecord_iterate (fun i hi => hother i (by omega))
        have hlen : ∀ j ≤ k, recordLength b j ≠ 0 := by
          intro j hj
          have hguard := hgo j (by omega)
          rw [hat j hj] at hguard
          exact searchGuard_iff.mp hguard
        rw [Function.iterate_succ_apply', hat k le_rfl] at hstop ⊢
        by_cases hn : RecordNamed fname b k
        · exact ⟨k, fun j hj => ⟨hlen j (by omega), hother j hj⟩,
            Or.inr ⟨hlen k le_rfl, hn, searchRecord_named hn⟩⟩
        · rw [searchRecord_other hn] at hstop ⊢
          refine ⟨k + 1, ?_, Or.inl ⟨searchGuard_false_iff.mp hstop, rfl⟩⟩
          intro j hj
          refine ⟨hlen j (by omega), ?_⟩
          by_cases hjk : j = k
          · exact hjk ▸ hn
          · exact hother j (by omega)
  · rintro ⟨k, hbefore, hend⟩
    have hat : ∀ j ≤ k, (searchRecord b fname)^[j] (0, false) = (recordOffset b j, false) :=
      fun j hj => searchRecord_iterate (fun i hi => (hbefore i (by omega)).2)
    have hgo : ∀ j < k, searchGuard b ((searchRecord b fname)^[j] (0, false)) = true := by
      intro j hj
      rw [hat j (by omega)]
      exact searchGuard_iff.mpr (hbefore j hj).1
    rcases hend with ⟨hz, rfl⟩ | ⟨hne, hn, rfl⟩
    · refine ⟨k, hgo, ?_, (hat k le_rfl).symm⟩
      rw [hat k le_rfl]
      exact searchGuard_false_iff.mpr hz
    · have hlast : (searchRecord b fname)^[k + 1] (0, false) = (recordOffset b k, true) := by
        rw [Function.iterate_succ_apply', hat k le_rfl, searchRecord_named hn]
      refine ⟨k + 1, ?_, by rw [hlast]; rfl, hlast.symm⟩
      intro j hj
      by_cases hjk : j = k
      · rw [hjk, hat k le_rfl]
        exact searchGuard_iff.mpr hne
      · exact hgo j (by omega)

/-- The records say what `search_directory` returns. -/
theorem sectorGives_iff {r : BitVec 32 × BitVec 32} :
    SectorGives fname b r ↔ ∃ fuel, searchDirectory fuel 0 b fname = some r := by
  have hrun : (∃ fuel, searchDirectory fuel 0 b fname = some r) ↔ ∃ t,
      Ends (searchGuard b) (fun s => some (searchRecord b fname s)) (0, false) t ∧
        (if t.2 then (read32 b (DIR_EXT_LOC + t.1).toNat, read32 b (DIR_EXT_SIZE + t.1).toNat)
          else (0, 0)) = r := by
    constructor
    · rintro ⟨fuel, h⟩
      obtain ⟨t, ht, hr⟩ := Option.bind_eq_some_iff.mp h
      refine ⟨t, ⟨fuel, ht⟩, ?_⟩
      cases hf : t.2 <;> simpa [hf] using hr
    · rintro ⟨t, ⟨fuel, ht⟩, hr⟩
      refine ⟨fuel, Option.bind_eq_some_iff.mpr ⟨t, ht, ?_⟩⟩
      cases hf : t.2 <;> simpa [hf] using hr
  rw [hrun]
  simp only [searchWalk_iff]
  constructor
  · rintro ⟨k, hbefore, ⟨hz, rfl⟩ | ⟨hne, hn, rfl⟩⟩
    · exact ⟨_, ⟨k, hbefore, Or.inl ⟨hz, rfl⟩⟩, rfl⟩
    · exact ⟨_, ⟨k, hbefore, Or.inr ⟨hne, hn, rfl⟩⟩, rfl⟩
  · rintro ⟨t, ⟨k, hbefore, ⟨hz, rfl⟩ | ⟨hne, hn, rfl⟩⟩, rfl⟩
    · exact ⟨k, hbefore, Or.inl ⟨hz, rfl⟩⟩
    · exact ⟨k, hbefore, Or.inr ⟨hne, hn, rfl⟩⟩

end records

theorem searchDirectory_fsize {fuel : ℕ} {fsize : BitVec 32} {b : Buf} {fname : List (BitVec 8)}
    {r : BitVec 32 × BitVec 32} (h : searchDirectory fuel fsize b fname = some r)
    (fsize' : BitVec 32) : ∃ r', searchDirectory fuel fsize' b fname = some r' ∧ r'.1 = r.1 ∧
      (r.1 ≠ 0 → r' = r) := by
  unfold searchDirectory at h ⊢
  simp only [Option.bind_eq_bind, Option.bind_eq_some_iff] at h ⊢
  obtain ⟨⟨offset, found⟩, hwalk, hr⟩ := h
  cases found with
  | true => exact ⟨r, ⟨_, hwalk, hr⟩, rfl, fun _ => rfl⟩
  | false =>
      obtain rfl := Option.some.inj hr
      exact ⟨(0, fsize'), ⟨_, hwalk, rfl⟩, rfl, fun h0 => absurd rfl h0⟩

section directory

variable {image : Image} {fname : List (BitVec 8)} {lba : BitVec 32} {n : BitVec 16} {b : Buf}

/-- The scan has read `i` sectors and all were passed. -/
structure PassedTo (image : Image) (fname : List (BitVec 8)) (lba : BitVec 32) (b : Buf) (i : ℕ)
    (s : DirScan Unit) : Prop where
  cur : s.cur_dir_lba = BitVec.ofNat 32 i
  temp : s.temp = 0
  buf : s.buf = heldBuf image lba b i
  passed : ∀ j < i, SectorPassed fname (heldBuf image lba b (j + 1))

/-- What `cdrom_search` returns when the scan has ended. -/
def scanResult (s : DirScan Unit) : BitVec 32 × BitVec 32 :=
  if s.temp ≠ 0 then (s.temp, s.fsize) else (0, 0)

theorem PassedTo.guard {i : ℕ} {s : DirScan Unit} (hs : PassedTo image fname lba b i s)
    (hi : i ≤ n.toNat) : scanGuard n s = decide (i < n.toNat) := by
  have hn := n.isLt
  have hlt : s.cur_dir_lba < n.setWidth 32 ↔ i < n.toNat := by
    rw [hs.cur, BitVec.lt_def, BitVec.toNat_setWidth, BitVec.toNat_ofNat]
    omega
  rw [scanGuard, hs.temp, decide_eq_decide.mpr hlt]
  rfl

theorem scanGuard_found {s : DirScan Unit} (h : s.temp ≠ 0) : scanGuard n s = false := by
  rw [scanGuard, beq_eq_false_iff_ne.mpr h]
  rfl

theorem PassedTo.step {i m : ℕ} {s s' : DirScan Unit} (hs : PassedTo image fname lba b i s)
    (h : scanSector (imageReader image) m fname lba s = some s') :
    (∃ r, SectorGives fname (heldBuf image lba b (i + 1)) r ∧ r.1 = s'.temp ∧
      (s'.temp ≠ 0 → r = (s'.temp, s'.fsize))) ∧
    (s'.temp = 0 → PassedTo image fname lba b (i + 1) s') := by
  unfold scanSector imageReader at h
  simp only [Option.bind_eq_bind, Option.bind_some, Option.bind_eq_some_iff, Option.pure_def,
    Option.some.injEq, hs.cur, hs.buf] at h
  obtain ⟨w, hw, rfl⟩ := h
  obtain ⟨r, hr, hr1, hrw⟩ := searchDirectory_fsize hw 0
  have hgives : SectorGives fname (heldBuf image lba b (i + 1)) r := sectorGives_iff.mpr ⟨m, hr⟩
  refine ⟨⟨r, hgives, hr1, hrw⟩, ?_⟩
  intro h0
  refine ⟨(BitVec.ofNat_add i 1).symm, h0, rfl, ?_⟩
  intro j hj
  by_cases hji : j = i
  · obtain ⟨r1, r2⟩ := r
    obtain rfl : r1 = 0 := hr1.trans h0
    exact hji ▸ ⟨r2, hgives⟩
  · exact hs.passed j (by omega)

theorem dirAnswer_of_scan {i m k : ℕ} {s t : DirScan Unit} (hs : PassedTo image fname lba b i s)
    (hi : i ≤ n.toNat)
    (h : whileLoop (scanGuard n) (scanSector (imageReader image) m fname lba) k s = some t) :
    DirAnswer image fname lba n.toNat b (scanResult t) := by
  have hexit : ¬ i < n.toNat → DirAnswer image fname lba n.toNat b (scanResult s) := by
    intro hge
    refine Or.inr ⟨fun j hj => hs.passed j (by omega), ?_⟩
    rw [scanResult, if_neg (not_not_intro hs.temp)]
  induction k generalizing i s with
  | zero =>
      rw [whileLoop, hs.guard hi] at h
      by_cases hlt : i < n.toNat
      · simp [hlt] at h
      · rw [decide_eq_false hlt] at h
        obtain rfl := Option.some.inj h
        exact hexit hlt
  | succ k ih =>
      rw [whileLoop, hs.guard hi] at h
      by_cases hlt : i < n.toNat
      · rw [decide_eq_true hlt, if_pos rfl] at h
        obtain ⟨s', hstep, hrest⟩ := Option.bind_eq_some_iff.mp h
        obtain ⟨⟨r, hgives, -, hr⟩, hpassed⟩ := hs.step hstep
        by_cases h0 : s'.temp = 0
        · have hs' := hpassed h0
          refine ih hs' (by omega) hrest ?_
          intro hge
          refine Or.inr ⟨fun j hj => hs'.passed j (by omega), ?_⟩
          rw [scanResult, if_neg (not_not_intro h0)]
        · rw [whileLoop_of_not (scanGuard_found h0)] at hrest
          obtain rfl := Option.some.inj hrest
          rw [scanResult, if_pos h0, ← hr h0]
          refine Or.inl ⟨i, hlt, hs.passed, hgives, ?_⟩
          rw [hr h0]
          exact h0
      · rw [decide_eq_false hlt] at h
        obtain rfl := Option.some.inj h
        exact hexit hlt

/-- The scan over the image, with enough fuel. -/
def ScanEnds (image : Image) (fname : List (BitVec 8)) (lba : BitVec 32) (n : BitVec 16)
    (s t : DirScan Unit) : Prop :=
  Settles (scanGuard n) (fun fuel => scanSector (imageReader image) fuel fname lba) s t

theorem PassedTo.round {i : ℕ} {s : DirScan Unit} (hs : PassedTo image fname lba b i s)
    (hi : i < n.toNat) {r : BitVec 32 × BitVec 32}
    (hg : SectorGives fname (heldBuf image lba b (i + 1)) r) :
    ∃ s', s'.temp = r.1 ∧ (r.1 ≠ 0 → (s'.temp, s'.fsize) = r) ∧
      (r.1 = 0 → PassedTo image fname lba b (i + 1) s') ∧
      ∀ t, ScanEnds image fname lba n s' t → ScanEnds image fname lba n s t := by
  have hguard := hs.guard (Nat.le_of_lt hi)
  rw [decide_eq_true hi] at hguard
  obtain ⟨f, hf⟩ := sectorGives_iff.mp hg
  obtain ⟨w, hw, hw1, hwr⟩ := searchDirectory_fsize hf s.fsize
  have hround : ∀ fuel, f ≤ fuel → scanSector (imageReader image) fuel fname lba s =
      some ⟨s.cur_dir_lba + 1, w.1, w.2, heldBuf image lba b (i + 1), ()⟩ := by
    intro fuel hfuel
    have hw' := searchDirectory_mono hfuel hw
    unfold scanSector imageReader
    simp only [hs.cur, hs.buf, Option.bind_eq_bind, Option.bind_some]
    rw [heldBuf] at hw'
    rw [hw']
    rfl
  refine ⟨_, hw1, fun h0 => hwr h0, fun h0 => ?_,
    fun t ht => Settles.round hguard ⟨f, hround⟩ ht⟩
  exact (hs.step (hround f le_rfl)).2 (hw1.trans h0)

theorem PassedTo.reach {i : ℕ} {s : DirScan Unit} (hs : PassedTo image fname lba b 0 s)
    (hi : i ≤ n.toNat) (hp : ∀ j < i, SectorPassed fname (heldBuf image lba b (j + 1))) :
    ∃ s', PassedTo image fname lba b i s' ∧
      ∀ t, ScanEnds image fname lba n s' t → ScanEnds image fname lba n s t := by
  induction i with
  | zero => exact ⟨s, hs, fun _ h => h⟩
  | succ i ih =>
      obtain ⟨s₁, hs₁, hto⟩ := ih (by omega) (fun j hj => hp j (by omega))
      obtain ⟨size, hg⟩ := hp i (Nat.lt_succ_self i)
      obtain ⟨s₂, -, -, hs₂, hto'⟩ := hs₁.round (n := n) (by omega) hg
      exact ⟨s₂, hs₂ rfl, fun t ht => hto t (hto' t ht)⟩

theorem scan_of_dirAnswer {s : DirScan Unit} (hs : PassedTo image fname lba b 0 s)
    {r : BitVec 32 × BitVec 32} (h : DirAnswer image fname lba n.toNat b r) :
    ∃ t, ScanEnds image fname lba n s t ∧ scanResult t = r := by
  rcases h with ⟨i, hi, hp, hg, hne⟩ | ⟨hp, rfl⟩
  · obtain ⟨s₁, hs₁, hto⟩ := hs.reach (n := n) (Nat.le_of_lt hi) hp
    obtain ⟨t, htemp, hr, -, hto'⟩ := hs₁.round hi hg
    have hexit : ScanEnds image fname lba n t t :=
      Settles.exit (scanGuard_found (by rw [htemp]; exact hne))
    refine ⟨t, hto t (hto' t hexit), ?_⟩
    rw [scanResult, if_pos (by rw [htemp]; exact hne), hr hne]
  · obtain ⟨t, ht, hto⟩ := hs.reach (n := n) le_rfl hp
    have hguard := ht.guard (n := n) le_rfl
    rw [decide_eq_false (Nat.lt_irrefl _)] at hguard
    refine ⟨t, hto t (Settles.exit hguard), ?_⟩
    rw [scanResult, if_neg (not_not_intro ht.temp)]

end directory

/-- What a search returns: what the directory holds that the buffer taken for the descriptor
names. -/
theorem returns_iff {δ : Type} {read : ℕ → Reader δ} {image : Image} {Good : δ → Prop}
    (hread : ServesImage read image Good) (hmono : FuelMono read) {fname : List (BitVec 8)}
    {fsize : BitVec 32} {buf : Buf} {d : δ} (hd : Good d) {r : BitVec 32 × BitVec 32} :
    Returns read fname fsize buf d r ↔ ∃ b, DescriptorBuf image buf b ∧
      DirAnswer image fname (dirLba b) (dirSectors b).toNat b r := by
  rw [returns_iff_image hread hmono hd]
  constructor
  · rintro ⟨n, b', h⟩
    unfold cdromSearch at h
    simp only [Option.bind_eq_bind, Option.bind_eq_some_iff] at h
    obtain ⟨⟨k, b, u⟩, hfind, t, hscan, hres⟩ := h
    refine ⟨b, descriptorBuf_iff.mp ⟨n, k, hfind⟩, ?_⟩
    have hanswer := dirAnswer_of_scan (b := b) ⟨rfl, rfl, rfl, fun j hj => absurd hj (by omega)⟩
      (Nat.zero_le _) hscan
    have hr : scanResult t = r := by
      unfold scanResult
      split_ifs at hres ⊢ <;> exact congrArg Prod.fst (Option.some.inj hres)
    exact hr ▸ hanswer
  · rintro ⟨b, hb, hanswer⟩
    obtain ⟨n, k, hfind⟩ := descriptorBuf_iff.mpr hb
    obtain ⟨t, ⟨m, hm⟩, hr⟩ := scan_of_dirAnswer
      (s := { cur_dir_lba := 0, temp := 0, fsize, buf := b, dev := () })
      ⟨rfl, rfl, rfl, fun j hj => absurd hj (by omega)⟩ hanswer
    have hfind' : findDescriptor (imageReader image) (max n m) buf () = some (k, b, ()) :=
      whileLoop_mono (le_max_left n m) hfind
    have hscan : scanDirectory (imageReader image) (max n m) fname (dirLba b) (dirSectors b)
        { cur_dir_lba := 0, temp := 0, fsize, buf := b, dev := () } = some t :=
      hm _ (le_max_right n m) _ (le_max_right n m)
    unfold dirLba dirSectors at hscan
    refine ⟨max n m, t.buf, ?_⟩
    unfold cdromSearch
    simp only [hfind', hscan, Option.bind_eq_bind, Option.bind_some]
    rw [← hr, scanResult]
    split_ifs <;> rfl

end Ziemniak.Stage2
