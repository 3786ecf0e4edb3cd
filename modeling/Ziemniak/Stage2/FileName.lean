import Ziemniak.Stage2.RootDirectory

/-! # Which file is found

`cdrom.h` promises "a file with exact name".  `compare_str` stops at the end of the searched
string, so every name that begins with it matches, and a sector without a zero byte at its end
lets the walk leave the buffer.  `findsNamed_iff` says for which names and directories the
search still returns nothing but the named file: the first record that matches and has an
extent is that of the file, in a sector that is reached through sectors that all end with a
zero byte or hold a match without an extent. -/

namespace Ziemniak.Stage2

open BareMetal

/-- The file identifier of the record at `o`. -/
def identifier (sector : ℕ → BitVec 8) (o : ℕ) : List (BitVec 8) :=
  bytesAt sector (o + 0x21) (sector (o + 0x20)).toNat

/-- A version number: decimal digits. -/
def IsVersion (l : List (BitVec 8)) : Prop := l ≠ [] ∧ ∀ c ∈ l, 0x30 ≤ c ∧ c ≤ 0x39

/-- The identifier is the name, with or without a version. -/
def Identifies (id fname : List (BitVec 8)) : Prop :=
  id = fname ∨ ∃ version, id = fname ++ 0x3B :: version ∧ IsVersion version

/-- Whatever the memory holds, a search that returns an extent took it from a record of the
directory, and that record is the one of the file. -/
def FindsNamed {δ : Type} (dev : Device δ) (cd : Cdrom) (Good : δ → Prop) {disk : Disk}
    (v : RootDirectory disk) (fname : List (BitVec 8)) : Prop :=
  ∀ (buf : Buf) (d : δ) (fsize : BitVec 32) (fuel : ℕ)
    (w : Watched (BitVec 32 × BitVec 32) ((BitVec 32 × BitVec 32) × Buf × δ)),
    (buf 0 = PVD_SIGNATURE → BufNames v.toVolume buf) → Good d →
    cdromSearchM (cdromReadSector dev fuel cd) fuel fname fsize buf d = some w →
    w.val.1.1 ≠ 0 → ∃ i o, w.record = some (BitVec.ofNat 32 i, BitVec.ofNat 32 o) ∧
      i < v.sectors ∧ o ∈ v.offs i ∧ w.val.1.1 = v.extent i o ∧
      Identifies (identifier (v.sector i) o) fname

/-! ### Names that are too long -/

/-- `compare_str` gives up behind 256 characters, so a longer name matches nothing. -/
theorem searchDirectory_long {fname : List (BitVec 8)} (h0 : ∀ c ∈ fname, c ≠ 0)
    (hlen : 256 < fname.length) {fuel : ℕ} {fsize : BitVec 32} {buf : Buf}
    {r : BitVec 32 × BitVec 32} (h : searchDirectory fuel fsize buf fname = some r) :
    r.1 = 0 := by
  have hcmp : ∀ mem, compareStr fname mem ≠ 0 := by
    intro mem hz
    have := ((compareFrom_eq_zero h0 (Nat.zero_le _)).mp hz).1
    omega
  unfold searchDirectory at h
  simp only [Option.bind_eq_bind, Option.bind_eq_some_iff, Option.pure_def] at h
  obtain ⟨t, ht, hr⟩ := h
  have hfound := (whileLoop_invariant (I := fun s : BitVec 32 × Bool => s.2 = false)
    (by
      intro s s' _ _ hs
      obtain rfl := Option.some.inj hs
      unfold searchRecord
      rw [if_neg (hcmp _)])
    rfl ht).1
  rw [hfound] at hr
  obtain rfl := Option.some.inj hr
  rfl

theorem cdromSearch_long {δ : Type} {read : Reader δ} {fname : List (BitVec 8)}
    (h0 : ∀ c ∈ fname, c ≠ 0) (hlen : 256 < fname.length) {fuel : ℕ} {fsize : BitVec 32}
    {buf : Buf} {d : δ} {r : (BitVec 32 × BitVec 32) × Buf × δ}
    (h : cdromSearch read fuel fname fsize buf d = some r) : r.1.1 = 0 := by
  unfold cdromSearch at h
  simp only [Option.bind_eq_bind, Option.bind_eq_some_iff, Option.pure_def] at h
  obtain ⟨t, -, s, hs, hr⟩ := h
  have htemp := (whileLoop_invariant (I := fun s : DirScan δ => s.temp = 0)
    (by
      intro s s' _ _ hround
      unfold scanSector at hround
      simp only [Option.bind_eq_bind, Option.bind_eq_some_iff, Option.pure_def] at hround
      obtain ⟨u, -, p, hp, hround⟩ := hround
      obtain rfl := Option.some.inj hround
      exact searchDirectory_long h0 hlen hp)
    rfl hs).1
  rw [if_neg (not_not_intro htemp)] at hr
  obtain rfl := Option.some.inj hr
  rfl

/-! ### Sectors without a zero byte at their end -/

section overrun

variable {disk : Disk} {v : RootDirectory disk} {fname : List (BitVec 8)} {i : ℕ}

/-- Memory behind the buffer that looks like a record with the name; `c` is its first byte. -/
def lure (fname : List (BitVec 8)) (c : BitVec 8) : Buf := fun x =>
  if x = 2048 then c else if x = 2050 then 1
  else if 2081 ≤ x then fname.getD (x - 2081) 0 else 0

theorem lure_match (hlen : fname.length ≤ 256) (c : BitVec 8) {b : Buf}
    (hb : ∀ x, 2048 ≤ x → b x = lure fname c x) :
    MatchAt b fname 2048 ∧ b 2048 = c ∧ read32 b 2050 = 1 := by
  refine ⟨⟨hlen, bytesAt_eq_iff.mpr ?_⟩, ?_, ?_⟩
  · intro k hk
    have e : 2048 + 0x21 + k - 2081 = k := by omega
    rw [hb _ (by omega), lure, if_neg (by omega), if_neg (by omega), if_pos (by omega), e]
  · rw [hb _ le_rfl, lure, if_pos rfl]
  · have hfield : ∀ x, 2050 ≤ x → x < 2054 → b x = if x = 2050 then 1 else 0 := by
      intro x hx hx'
      rw [hb x (by omega), lure, if_neg (by omega)]
      split_ifs <;> first | rfl | omega
    rw [read32_congr (c := fun x => if x = 2050 then 1 else 0) hfield]
    decide

/-- The byte behind a sector can be chosen so that no record of the sector goes on matching
behind its end. -/
theorem exists_lure (fname : List (BitVec 8)) (hi : i < v.sectors) : ∃ c : BitVec 8, c ≠ 0 ∧
    ∀ o ∈ v.offs i, fname.getD (2048 - (o + 0x21)) 0 ≠ c := by
  have hc := (v.chain i hi).length_le
  have hstop := RootDirectory.stop_le hi
  obtain ⟨c, hc⟩ := exists_byte_notMem
    (l := 0 :: (v.offs i).map (fun o => fname.getD (2048 - (o + 0x21)) 0))
    (by rw [List.length_cons, List.length_map]; omega)
  rw [List.mem_cons, not_or, List.mem_map] at hc
  exact ⟨c, hc.1, fun o ho he => hc.2 ⟨o, ho, he⟩⟩

/-- The walk leaves a full sector without a match and finds what lies behind the buffer. -/
theorem search_overrun (h0 : ∀ c ∈ fname, c ≠ 0) (hlen : fname.length ≤ 256)
    (hi : i < v.sectors) (hmiss : v.hit fname i = none) (hstop : v.stop i = 2048)
    {c : BitVec 8} (hc0 : c ≠ 0) (hc : ∀ o ∈ v.offs i, fname.getD (2048 - (o + 0x21)) 0 ≠ c)
    {b : Buf} (hin : ∀ x < 2048, b x = v.sector i x)
    (hb : ∀ x, 2048 ≤ x → b x = lure fname c x) (fsize : BitVec 32) :
    ∃ w : Watched (BitVec 32) (BitVec 32 × BitVec 32), (∀ fuel, (v.offs i).length < fuel →
      searchDirectoryM fuel fsize b fname = some w) ∧ w.val.1 = 1 ∧
      w.record = some (BitVec.ofNat 32 2048) := by
  obtain ⟨hm, hfirst, hextent⟩ := lure_match hlen c hb
  have hchain := (v.chain i hi).congr (by omega)
    (fun x hx => congrArg BitVec.toNat (hin x hx).symm)
  rw [hstop] at hchain
  have hno : ∀ o ∈ v.offs i, ¬ MatchAt b fname o := by
    intro o ho hmo
    have ho' := RootDirectory.mem_offs hi ho
    by_cases hle : o + 0x21 + fname.length ≤ 2048
    · have hbegins := (matchAt_iff hin hlen hle).mp hmo
      exact of_decide_eq_false (by simpa using List.find?_eq_none.mp hmiss o ho) hbegins
    · have hk := bytesAt_eq_iff.mp hmo.2 (2048 - (o + 0x21)) (by omega)
      rw [Nat.add_sub_cancel' (by omega), hfirst] at hk
      exact hc o ho hk.symm
  obtain ⟨reads, hrun, -⟩ := searchDirectoryM_hit h0 hchain hno le_rfl
    (by rw [hfirst]; exact hc0) hm fsize
  exact ⟨_, hrun, hextent, rfl⟩

end overrun

/-! ### When the file found is the one named -/

section named

variable {δ : Type} {dev : Device δ} {cd : Cdrom} {Good : δ → Prop} {disk : Disk}
  {v : RootDirectory disk} {fname : List (BitVec 8)}

theorem cdromSearchM_unique {fuel n : ℕ} {fsize : BitVec 32} {buf : Buf} {d : δ}
    {w w' : Watched (BitVec 32 × BitVec 32) ((BitVec 32 × BitVec 32) × Buf × δ)}
    (h : cdromSearchM (cdromReadSector dev fuel cd) fuel fname fsize buf d = some w)
    (h' : ∀ fuel, n ≤ fuel →
      cdromSearchM (cdromReadSector dev fuel cd) fuel fname fsize buf d = some w') : w = w' := by
  have hmono : ∀ lba d r, cdromReadSector dev fuel cd lba d = some r →
      cdromReadSector dev (max fuel n) cd lba d = some r :=
    fun _ _ _ hr => cdromReadSector_mono (Nat.le_max_left fuel n) hr
  have e := cdromSearchM_mono hmono (Nat.le_max_left fuel n) h
  rw [h' _ (Nat.le_max_right fuel n)] at e
  exact (Option.some.inj e).symm

theorem not_passed_of_hit {i o : ℕ} (hhit : v.hit fname i = some o)
    (hp : ¬ v.Passed fname i) : v.extent i o ≠ 0 := by
  unfold RootDirectory.Passed at hp
  rw [hhit] at hp
  exact hp

/-- The run that ends at the first sector not passed, when a record with an extent is found
there. -/
theorem cdromSearchM_stops (hread : Serves (fun fuel => cdromReadSector dev fuel cd) disk Good)
    (h0 : ∀ c ∈ fname, c ≠ 0) (hlen : fname.length ≤ 256) {i : ℕ} (hi : i < v.scanned)
    (hbefore : ∀ j < i, v.Passed fname j) (buf : Buf)
    (hb : buf 0 = PVD_SIGNATURE → BufNames v.toVolume buf) {d : δ} (hd : Good d)
    {extent o : BitVec 32} (hne : extent ≠ 0)
    (hsec : ∀ b fsize, (∀ y < 2048, b y = v.sector i y) → (∀ y, 2048 ≤ y → b y = buf y) →
      ∃ w : Watched (BitVec 32) (BitVec 32 × BitVec 32), (∀ fuel, (v.offs i).length < fuel →
        searchDirectoryM fuel fsize b fname = some w) ∧ w.val.1 = extent ∧ w.record = some o)
    (fsize : BitVec 32) : ∃ n w, (∀ fuel, n ≤ fuel →
      cdromSearchM (cdromReadSector dev fuel cd) fuel fname fsize buf d = some w) ∧
      w.val.1.1 = extent ∧ w.record = some (BitVec.ofNat 32 i, o) := by
  obtain ⟨s₀, hs₀, hrun⟩ := cdromSearchM_scan hread v fname fsize hb hd
  obtain ⟨s, hs, hto⟩ := hs₀.reach hread h0 hlen (Nat.le_of_lt hi)
    (fun j hj => (hbefore j hj).before _)
  obtain ⟨w, hw, hextent, ho⟩ := hsec (sectorBuf v.toVolume i s.val.buf) s.val.fsize
    (sectorBuf_inside _ _ _) (fun y hy => by rw [sectorBuf_behind _ _ _ hy, hs.behind y hy])
  obtain ⟨t, ht, -, hval, hrecord, -⟩ :=
    hs.settles_found hread hi hw (by rw [hextent]; exact hne)
  obtain ⟨n, hn⟩ := hrun t (hto t ht)
  have htemp : t.val.temp = extent := (congrArg Prod.fst hval).trans hextent
  have hres : searchResult t =
      { t with val := ((t.val.temp, t.val.fsize), t.val.buf, t.val.dev) } := by
    unfold searchResult
    rw [if_pos (by rw [htemp]; exact hne)]
  refine ⟨n, _, hn, by rw [hres]; exact htemp, ?_⟩
  rw [hres]
  simp only [hrecord, ho, Option.map_some]

theorem record_inj {i i' o o' : ℕ} (hi : i < v.sectors) (hi' : i' < v.sectors) (ho : o ≤ 2048)
    (ho' : o' ∈ v.offs i')
    (h : some (BitVec.ofNat 32 i, BitVec.ofNat 32 o) =
      some (BitVec.ofNat 32 i', BitVec.ofNat 32 o')) : i = i' ∧ o = o' := by
  obtain ⟨hs, hoff⟩ := Prod.mk.inj (Option.some.inj h)
  have hlt := v.dir_size.isLt
  have hsec : v.sectors = v.dir_size.toNat / 2048 := rfl
  have hstop := RootDirectory.stop_le hi'
  have hmem := RootDirectory.mem_offs hi' ho'
  have e1 := congrArg BitVec.toNat hs
  have e2 := congrArg BitVec.toNat hoff
  rw [BitVec.toNat_ofNat, BitVec.toNat_ofNat] at e1 e2
  omega

/-- Any buffer shows that the first record with an extent is the one of the file. -/
theorem FindsNamed.of_hit (hall : FindsNamed dev cd Good v fname)
    (hread : Serves (fun fuel => cdromReadSector dev fuel cd) disk Good)
    {d : δ} (hd : Good d) (h0 : ∀ c ∈ fname, c ≠ 0) (hlen : fname.length ≤ 256) {i o : ℕ}
    (hi : i < v.scanned) (hbefore : ∀ j < i, v.Passed fname j) (hnot : ¬ v.Passed fname i)
    (hhit : v.hit fname i = some o) : Identifies (identifier (v.sector i) o) fname := by
  have hi' : i < v.sectors := lt_of_lt_of_le hi (scanned_le _)
  have hne := not_passed_of_hit hhit hnot
  have hbuf : (0 : BitVec 8) = PVD_SIGNATURE → BufNames v.toVolume (fun _ => 0) :=
    fun h => absurd h (by decide)
  obtain ⟨n, w, hrun, hextent, hrecord⟩ :=
    cdromSearchM_stops hread h0 hlen hi hbefore (fun _ => 0) hbuf hd hne
      (fun b fsize hin _ => by
        obtain ⟨reads, hs, -⟩ := RootDirectory.search_hit h0 hlen hi' hin hhit fsize
        exact ⟨_, hs, rfl, rfl⟩) 0
  obtain ⟨i', o', hrecord', hlt, ho', -, hid⟩ :=
    hall _ d 0 n w hbuf hd (hrun n le_rfl) (by rw [hextent]; exact hne)
  have hmem := RootDirectory.mem_offs hi' (RootDirectory.hit_mem hhit)
  have hstop := RootDirectory.stop_le hi'
  obtain ⟨rfl, rfl⟩ := record_inj hi' hlt (by omega) ho' (hrecord.symm.trans hrecord')
  exact hid

/-- A sector without a match is ended by a zero byte, or memory can lure the search away. -/
theorem FindsNamed.of_miss (hall : FindsNamed dev cd Good v fname)
    (hread : Serves (fun fuel => cdromReadSector dev fuel cd) disk Good)
    {d : δ} (hd : Good d) (h0 : ∀ c ∈ fname, c ≠ 0) (hlen : fname.length ≤ 256) {i : ℕ}
    (hi : i < v.scanned) (hbefore : ∀ j < i, v.Passed fname j) (hmiss : v.hit fname i = none) :
    v.Passed fname i := by
  have hi' : i < v.sectors := lt_of_lt_of_le hi (scanned_le _)
  have hle := RootDirectory.stop_le hi'
  by_contra hnot
  have hstop : v.stop i = 2048 := by
    unfold RootDirectory.Passed at hnot
    rw [hmiss] at hnot
    exact le_antisymm hle (Nat.not_lt.mp hnot)
  obtain ⟨c, hc0, hc⟩ := exists_lure (v := v) fname hi'
  have hone : (1 : BitVec 32) ≠ 0 := by decide
  have hbuf : lure fname c 0 = PVD_SIGNATURE → BufNames v.toVolume (lure fname c) :=
    fun h => absurd h (by simp [lure, PVD_SIGNATURE])
  obtain ⟨n, w, hrun, hextent, hrecord⟩ :=
    cdromSearchM_stops hread h0 hlen hi hbefore (lure fname c) hbuf hd hone
      (fun b fsize hin hb => search_overrun h0 hlen hi' hmiss hstop hc0 hc hin hb fsize) 0
  obtain ⟨i', o', hrecord', hlt, ho', -, -⟩ :=
    hall _ d 0 n w hbuf hd (hrun n le_rfl) (by rw [hextent]; exact hone)
  obtain ⟨rfl, rfl⟩ := record_inj hi' hlt le_rfl ho' (hrecord.symm.trans hrecord')
  have hmem := RootDirectory.mem_offs hi' ho'
  omega

/-- **File names.**  The search finds nothing but the file that was named, with or without a
version, exactly when the name is longer than `compare_str` looks, or the first sector that is
not passed holds the record of that file as its first match. -/
theorem findsNamed_iff (hread : Serves (fun fuel => cdromReadSector dev fuel cd) disk Good)
    (hgood : ∃ d, Good d) (v : RootDirectory disk) (h0 : ∀ c ∈ fname, c ≠ 0) :
    FindsNamed dev cd Good v fname ↔ 256 < fname.length ∨
      ∀ i < v.scanned, (∀ j < i, v.Passed fname j) → v.Passed fname i ∨
        ∃ o, v.hit fname i = some o ∧ Identifies (identifier (v.sector i) o) fname := by
  constructor
  · obtain ⟨d₀, hd₀⟩ := hgood
    intro hall
    by_cases hlong : 256 < fname.length
    · exact Or.inl hlong
    · right
      intro i hi hbefore
      by_cases hp : v.Passed fname i
      · exact Or.inl hp
      · cases hhit : v.hit fname i with
        | some o =>
            exact Or.inr ⟨o, rfl,
              hall.of_hit hread hd₀ h0 (Nat.not_lt.mp hlong) hi hbefore hp hhit⟩
        | none => exact Or.inl (hall.of_miss hread hd₀ h0 (Nat.not_lt.mp hlong) hi hbefore hhit)
  · intro hcond buf d fsize fuel w hb hd hrun hne
    by_cases hlong : 256 < fname.length
    · have hval : cdromSearch (cdromReadSector dev fuel cd) fuel fname fsize buf d =
          some w.val := by
        rw [← cdromSearchM_val, hrun, Option.map_some]
      exact absurd (cdromSearch_long h0 hlong hval) hne
    · have hlen := Nat.not_lt.mp hlong
      have hcond := hcond.resolve_left hlong
      by_cases hall : ∀ i < v.scanned, v.Passed fname i
      · obtain ⟨s₀, hs₀, hfind⟩ := cdromSearchM_scan hread v fname fsize hb hd
        obtain ⟨s, hs, hto⟩ := hs₀.reach hread h0 hlen le_rfl
          (fun j hj => (hall j hj).before _)
        obtain ⟨n, hn⟩ := hfind s (hto s hs.settles_end)
        rw [cdromSearchM_unique hrun hn] at hne
        unfold searchResult at hne
        rw [if_neg (not_not_intro hs.temp)] at hne
        exact absurd rfl hne
      · obtain ⟨i, hi, hp, hbefore⟩ := exists_first hall
        obtain ⟨o, hhit, hid⟩ := (hcond i hi hbefore).resolve_left hp
        have hi' : i < v.sectors := lt_of_lt_of_le hi (scanned_le _)
        obtain ⟨n, w', hrun', hextent, hrecord⟩ :=
          cdromSearchM_stops hread h0 hlen hi hbefore buf hb hd (not_passed_of_hit hhit hp)
            (fun b fsize hin _ => by
              obtain ⟨reads, hs, -⟩ := RootDirectory.search_hit h0 hlen hi' hin hhit fsize
              exact ⟨_, hs, rfl, rfl⟩) fsize
        rw [cdromSearchM_unique hrun hrun']
        exact ⟨i, o, hrecord, hi', RootDirectory.hit_mem hhit, hextent, hid⟩

end named

/-! ### A directory with a longer name -/

/-- The four bytes of a number, the low byte first. -/
def le32 (x : ℕ) : List (BitVec 8) := (List.range 4).map (fun k => BitVec.ofNat 8 (x / 256 ^ k))

/-- A directory record without a date; both byte orders, and padded to an even length. -/
def dirRecord (extent size : ℕ) (flags : BitVec 8) (id : List (BitVec 8)) : List (BitVec 8) :=
  let pad := if id.length % 2 = 0 then [0] else []
  [BitVec.ofNat 8 (33 + id.length + pad.length), 0] ++ le32 extent ++ (le32 extent).reverse ++
    le32 size ++ (le32 size).reverse ++ List.replicate 7 0 ++
    [flags, 0, 0, 1, 0, 0, 1, BitVec.ofNat 8 id.length] ++ id ++ pad

/-- `POTATO.BINX;1` -/
def foreign_id : List (BitVec 8) := kernel_name ++ [0x58, 0x3B, 0x31]

/-- A disk whose root directory holds itself, its parent and that one file. -/
def foreignDisk : Disk := fun lba j =>
  if lba = 16 then
    ([1, 0x43, 0x44, 0x30, 0x30, 0x31, 1] ++ List.replicate 149 0 ++
      dirRecord 20 2048 2 [0]).getD j 0
  else if lba = 20 then
    (dirRecord 20 2048 2 [0] ++ dirRecord 20 2048 2 [1] ++ dirRecord 30 5 0 foreign_id).getD j 0
  else 0

def foreignRoot : RootDirectory foreignDisk where
  lba_off := 0
  signature := by decide
  first := fun i hi => absurd hi (Nat.not_lt_zero i)
  offs := fun _ => [0, 34, 68]
  stop := fun _ => 114
  chain := by
    intro i hi
    obtain rfl := Nat.lt_one_iff.mp hi
    exact .record (by decide) (by decide) (.record (by decide) (by decide)
      (.record (by decide) (by decide) (.stop 114)))
  ended := by
    intro i hi _
    obtain rfl := Nat.lt_one_iff.mp hi
    decide

/-- Searched for `POTATO.BIN`, which is not there, that disk gives the extent of
`POTATO.BINX`. -/
theorem findsNamed_foreign : ¬ FindsNamed (drive foreignDisk (fun _ => false) 0x170) plainCdrom
    (fun _ => True) foreignRoot kernel_name := by
  intro hall
  have h0 : ∀ c ∈ kernel_name, c ≠ 0 := by decide
  have hhit : foreignRoot.hit kernel_name 0 = some 68 := by decide
  have hnot : ¬ foreignRoot.Passed kernel_name 0 := by
    unfold RootDirectory.Passed
    rw [hhit]
    decide
  have hid : identifier (foreignRoot.sector 0) 68 = foreign_id := by decide
  have h := hall.of_hit (drive_serves foreignDisk plainCdrom) (d := idleDrive) trivial h0
    (by decide) (by decide) (fun j hj => absurd hj (Nat.not_lt_zero j)) hnot hhit
  rw [hid] at h
  rcases h with h | ⟨version, h, -⟩
  · exact absurd h (by decide)
  · have h10 : foreign_id.getD 10 0 = (kernel_name ++ 0x3B :: version).getD 10 0 := by rw [h]
    have hsemicolon : (kernel_name ++ 0x3B :: version).getD 10 0 = 0x3B := rfl
    rw [hsemicolon] at h10
    exact absurd h10 (by decide)

/-- Searched for the name it has, the file is found. -/
theorem findsNamed_iff_named : FindsNamed (drive foreignDisk (fun _ => false) 0x170) plainCdrom
    (fun _ => True) foreignRoot (kernel_name ++ [0x58]) := by
  have h0 : ∀ c ∈ kernel_name ++ [0x58], c ≠ 0 := by decide
  refine (findsNamed_iff (drive_serves foreignDisk plainCdrom) ⟨idleDrive, trivial⟩ foreignRoot
    h0).mpr (Or.inr ?_)
  intro i hi _
  obtain rfl := Nat.lt_one_iff.mp hi
  exact Or.inr ⟨68, by decide, Or.inr ⟨[0x31], by decide, by decide, by decide⟩⟩

end Ziemniak.Stage2
