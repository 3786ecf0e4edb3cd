import Ziemniak.Stage2.Directory
import Ziemniak.Stage2.Main

/-! # Reads outside a directory sector

`search_directory` gets a sector of 2048 bytes and no length.  It stops at a zero length byte or
at the first record that matches, and compares a name until it differs; nothing else bounds what
it reads.

`searchSafe_iff` says for which sectors and names this is enough: the records it visits form a
chain that comes to a zero byte or to a match inside the sector, and every name on the way
differs inside the sector.  A sector that is filled exactly by its records is not among them. -/

namespace Ziemniak.Stage2

open BareMetal

/-! ### What the sector must hold -/

/-- The search ends and reads nothing behind the sector. -/
def SearchSafe (fsize : BitVec 32) (buf : Buf) (fname : List (BitVec 8)) : Prop :=
  ∃ n w, (∀ fuel, n ≤ fuel → searchDirectoryM fuel fsize buf fname = some w) ∧
    ∀ y ∈ w.reads, y < CD_SECTOR_SIZE

/-- The comparison with the name of the record at `o` stops inside the sector, at a character
that differs or at index 256. -/
def DiffersInside (buf : Buf) (fname : List (BitVec 8)) (o : ℕ) : Prop :=
  ∃ k < fname.length, k ≤ 256 ∧ o + 0x21 + k < CD_SECTOR_SIZE ∧
    (k = 256 ∨ fname.getD k 0 ≠ buf (o + 0x21 + k))

/-- The record at `o` matches, and the location, the size and the compared part of the name lie
inside the sector. -/
def MatchesInside (buf : Buf) (fname : List (BitVec 8)) (o : ℕ) : Prop :=
  fname.length ≤ 256 ∧ o + 14 ≤ CD_SECTOR_SIZE ∧
    ∀ k < fname.length, o + 0x21 + k < CD_SECTOR_SIZE ∧ fname.getD k 0 = buf (o + 0x21 + k)

/-- The records of the sector, up to a zero length byte or to the first match. -/
def RecordsInside (buf : Buf) (fname : List (BitVec 8)) : Prop :=
  ∃ offs e, Chain (fun x => (buf x).toNat) 1 CD_SECTOR_SIZE 0 offs e ∧ e < CD_SECTOR_SIZE ∧
    (∀ o ∈ offs, DiffersInside buf fname o) ∧ (buf e = 0 ∨ MatchesInside buf fname e)

theorem RecordsInside.congr {buf buf' : Buf} {fname : List (BitVec 8)}
    (h : RecordsInside buf fname) (hbuf : ∀ x < CD_SECTOR_SIZE, buf x = buf' x) :
    RecordsInside buf' fname := by
  obtain ⟨offs, e, hc, he, hoffs, hend⟩ := h
  refine ⟨offs, e, hc.congr Nat.one_pos (fun x hx => congrArg BitVec.toNat (hbuf x hx)), he, ?_,
    ?_⟩
  · intro o ho
    obtain ⟨k, hk, hk256, hin, hstop⟩ := hoffs o ho
    exact ⟨k, hk, hk256, hin, by rwa [← hbuf _ hin]⟩
  · rw [← hbuf e he]
    refine hend.imp_right ?_
    rintro ⟨hlen, hfields, hname⟩
    refine ⟨hlen, hfields, ?_⟩
    intro k hk
    obtain ⟨hin, hc⟩ := hname k hk
    exact ⟨hin, by rwa [← hbuf _ hin]⟩

/-! ### Comparing a name -/

/-- The comparison reads up to the first index at which it stops. -/
theorem compareReads_first {m : ℕ → BitVec 8} {str : List (BitVec 8)} (h0 : ∀ c ∈ str, c ≠ 0)
    {i k : ℕ} (hk : k < str.length) (hi : i + k ≤ 256)
    (hstop : i + k = 256 ∨ str.getD k 0 ≠ m (i + k))
    (hbefore : ∀ j < k, str.getD j 0 = m (i + j)) :
    compareReads m i str = List.range' i (k + 1) := by
  induction str generalizing i k with
  | nil => cases hk
  | cons c str ih =>
      obtain ⟨hc, hstr⟩ := List.forall_mem_cons.mp h0
      rw [compareReads, if_neg hc]
      cases k with
      | zero =>
          rw [List.range'_one]
          split_ifs with hm h256
          · rfl
          · rfl
          · exact absurd hstop (not_or.mpr ⟨h256, fun hne => hm hne⟩)
      | succ k =>
          have hm : c = m i := hbefore 0 (Nat.succ_pos k)
          have hrest := ih hstr (i := i + 1) (k := k) (by simpa using hk) (by omega)
            (by rw [Nat.add_right_comm]; exact hstop)
            (by
              intro j hj
              rw [Nat.add_right_comm]
              exact hbefore (j + 1) (by omega))
          rw [if_neg (not_not_intro hm), if_neg (by omega), hrest, ← List.range'_succ]

theorem compareReads_all {m : ℕ → BitVec 8} {str : List (BitVec 8)} (h0 : ∀ c ∈ str, c ≠ 0)
    {i : ℕ} (hi : i + str.length ≤ 256) (hsame : ∀ j < str.length, str.getD j 0 = m (i + j)) :
    compareReads m i str = List.range' i str.length := by
  induction str generalizing i with
  | nil => rfl
  | cons c str ih =>
      obtain ⟨hc, hstr⟩ := List.forall_mem_cons.mp h0
      rw [List.length_cons] at hi hsame
      have hm : c = m i := hsame 0 (Nat.succ_pos _)
      have hrest := ih hstr (i := i + 1) (by omega)
        (by
          intro j hj
          rw [Nat.add_right_comm]
          exact hsame (j + 1) (by omega))
      rw [compareReads, if_neg hc, if_neg (not_not_intro hm), if_neg (by omega), hrest,
        List.length_cons, List.range'_succ]

section record

variable {buf : Buf} {fname : List (BitVec 8)} {o : ℕ}

theorem matchAt_iff_getD : MatchAt buf fname o ↔
    fname.length ≤ 256 ∧ ∀ k < fname.length, fname.getD k 0 = buf (o + 0x21 + k) := by
  unfold MatchAt
  rw [bytesAt_eq_iff]
  apply and_congr_right
  intro _
  exact forall₂_congr fun k _ => eq_comm

theorem exists_stop (hm : ¬ MatchAt buf fname o) : ∃ k < fname.length, k ≤ 256 ∧
    (k = 256 ∨ fname.getD k 0 ≠ buf (o + 0x21 + k)) ∧
    ∀ j < k, fname.getD j 0 = buf (o + 0x21 + j) := by
  by_cases hsame : ∀ k < min fname.length 256, fname.getD k 0 = buf (o + 0x21 + k)
  · have hlen : 256 < fname.length := by
      by_contra hle
      refine hm (matchAt_iff_getD.mpr ⟨by omega, ?_⟩)
      intro k hk
      exact hsame k (by omega)
    exact ⟨256, hlen, le_rfl, Or.inl rfl, fun j hj => hsame j (by omega)⟩
  · obtain ⟨k, hk, hne, hbefore⟩ := exists_first hsame
    exact ⟨k, by omega, by omega, Or.inr hne, hbefore⟩

theorem mem_recordReads (ho : o ≤ 2048) {y : ℕ} :
    y ∈ recordReads buf fname (BitVec.ofNat 32 o) ↔
      y = o ∨ ∃ i ∈ compareReads (fun i => buf (o + 0x21 + i)) 0 fname, o + 0x21 + i = y := by
  have hsize : (DIR_SIZE + BitVec.ofNat 32 o).toNat = o := field_toNat _ (by decide) ho
  have hname : (DIR_FILENAME + BitVec.ofNat 32 o).toNat = o + 0x21 := field_toNat _ (by decide) ho
  unfold recordReads
  rw [hsize, hname, List.mem_cons, List.mem_append, List.mem_map]
  split_ifs
  · simp
  · rw [List.mem_singleton, or_left_comm, or_self, or_comm]

theorem DiffersInside.not_matchAt (h : DiffersInside buf fname o) : ¬ MatchAt buf fname o := by
  obtain ⟨k, hk, -, -, hstop⟩ := h
  intro hm
  obtain ⟨hlen, hsame⟩ := matchAt_iff_getD.mp hm
  rcases hstop with rfl | hne
  · omega
  · exact hne (hsame k hk)

theorem MatchesInside.matchAt (h : MatchesInside buf fname o) : MatchAt buf fname o :=
  matchAt_iff_getD.mpr ⟨h.1, fun k hk => (h.2.2 k hk).2⟩

variable (h0 : ∀ c ∈ fname, c ≠ 0)

include h0

theorem recordReads_differs (ho : o < 2048) (hm : ¬ MatchAt buf fname o) :
    (∀ y ∈ recordReads buf fname (BitVec.ofNat 32 o), y < 2048) ↔ DiffersInside buf fname o := by
  obtain ⟨k, hk, hk256, hstop, hbefore⟩ := exists_stop hm
  have hreads := compareReads_first (m := fun i => buf (o + 0x21 + i)) h0 (i := 0) hk (by omega)
    (by simpa using hstop) (by simpa using hbefore)
  simp only [mem_recordReads (Nat.le_of_lt ho), hreads, List.mem_range'_1]
  constructor
  · intro hin
    exact ⟨k, hk, hk256, hin _ (Or.inr ⟨k, by omega, rfl⟩), hstop⟩
  · rintro ⟨j, hj, hj256, hjin, hjstop⟩ y hy
    have hkj : k ≤ j := by
      by_contra hlt
      rcases hjstop with rfl | hne
      · omega
      · exact hne (hbefore j (by omega))
    unfold CD_SECTOR_SIZE at hjin
    rcases hy with rfl | ⟨i, hi, rfl⟩ <;> omega

theorem recordReads_match (ho : o < 2048) (hm : MatchAt buf fname o) :
    (∀ y ∈ recordReads buf fname (BitVec.ofNat 32 o) ++ fieldReads (o + 10) ++ fieldReads (o + 2),
      y < 2048) ↔ MatchesInside buf fname o := by
  obtain ⟨hlen, hsame⟩ := matchAt_iff_getD.mp hm
  have hreads := compareReads_all (m := fun i => buf (o + 0x21 + i)) h0 (i := 0) (by omega)
    (by simpa using hsame)
  unfold fieldReads
  simp only [List.mem_append, mem_recordReads (Nat.le_of_lt ho), hreads, List.mem_range'_1]
  constructor
  · intro hin
    have hlast := hin (o + 13) (Or.inl (Or.inr (by omega)))
    refine ⟨hlen, by unfold CD_SECTOR_SIZE; omega, ?_⟩
    intro k hk
    exact ⟨hin _ (Or.inl (Or.inl (Or.inr ⟨k, by omega, rfl⟩))), hsame k hk⟩
  · rintro ⟨-, hfields, hname⟩ y hy
    unfold CD_SECTOR_SIZE at hfields
    rcases hy with ((rfl | ⟨i, hi, rfl⟩) | hy) | hy
    · exact ho
    · exact (hname i (by omega)).1
    · omega
    · omega

end record

/-! ### The walk -/

/-- What is read when the walk has ended: the two fields of the match, or the byte that is zero. -/
def lastReads (s : BitVec 32 × Bool) : List ℕ :=
  if s.2 then fieldReads (DIR_EXT_SIZE + s.1).toNat ++ fieldReads (DIR_EXT_LOC + s.1).toNat
  else [(DIR_SIZE + s.1).toNat]

theorem searchDirectoryM_reads (fuel : ℕ) (fsize : BitVec 32) (buf : Buf)
    (fname : List (BitVec 8)) : (searchDirectoryM fuel fsize buf fname).map Watched.reads =
      (searchWalkM fuel buf fname ((0, false), [])).map (fun t => t.2 ++ lastReads t.1) := by
  unfold searchDirectoryM
  cases searchWalkM fuel buf fname ((0, false), []) with
  | none => rfl
  | some t =>
      obtain ⟨⟨offset, found⟩, reads⟩ := t
      cases found with
      | false => rfl
      | true => exact congrArg some (List.append_assoc ..)

/-- The search is safe when some run of the walk is. -/
theorem searchSafe_iff_walk {fsize : BitVec 32} {buf : Buf} {fname : List (BitVec 8)} :
    SearchSafe fsize buf fname ↔ ∃ n t, searchWalkM n buf fname ((0, false), []) = some t ∧
      ∀ y ∈ t.2 ++ lastReads t.1, y < 2048 := by
  constructor
  · rintro ⟨n, w, hw, hin⟩
    have hreads := searchDirectoryM_reads n fsize buf fname
    rw [hw n le_rfl, Option.map_some] at hreads
    obtain ⟨t, ht, he⟩ := Option.map_eq_some_iff.mp hreads.symm
    refine ⟨n, t, ht, ?_⟩
    rw [he]
    exact hin
  · rintro ⟨n, t, ht, hin⟩
    have hreads := searchDirectoryM_reads n fsize buf fname
    rw [ht, Option.map_some] at hreads
    obtain ⟨w, hw, he⟩ := Option.map_eq_some_iff.mp hreads
    refine ⟨n, w, fun fuel hfuel => searchDirectoryM_mono hfuel hw, ?_⟩
    rw [he]
    exact hin

section walk

variable {buf : Buf} {fname : List (BitVec 8)}

theorem searchWalkM_reads_subset {n : ℕ} {s t : (BitVec 32 × Bool) × List ℕ}
    (h : searchWalkM n buf fname s = some t) : s.2 ⊆ t.2 := by
  refine (whileLoop_invariant (I := fun u => s.2 ⊆ u.2) ?_ (List.Subset.refl _) h).1
  rintro u u' hu - hstep
  obtain rfl := Option.some.inj hstep
  exact List.Subset.trans hu (List.subset_append_left _ _)

theorem size_toNat {o : ℕ} (ho : o < 2 ^ 32) : (DIR_SIZE + BitVec.ofNat 32 o).toNat = o := by
  have h : DIR_SIZE + BitVec.ofNat 32 o = BitVec.ofNat 32 o := BitVec.zero_add _
  rw [h, BitVec.toNat_ofNat, Nat.mod_eq_of_lt ho]

theorem records_of_stop {n o : ℕ} {reads : List ℕ} {t : (BitVec 32 × Bool) × List ℕ}
    (ho : o < 2 ^ 32) (hguard : searchGuard buf (BitVec.ofNat 32 o, false) = false)
    (hrun : searchWalkM n buf fname ((BitVec.ofNat 32 o, false), reads) = some t)
    (hin : ∀ y ∈ t.2 ++ lastReads t.1, y < 2048) : o < 2048 ∧
      ∃ offs e, Chain (fun x => (buf x).toNat) 1 2048 o offs e ∧ e < 2048 ∧
        (∀ x ∈ offs, DiffersInside buf fname x) ∧ (buf e = 0 ∨ MatchesInside buf fname e) := by
  rw [searchWalkM_stop hguard] at hrun
  obtain rfl := Option.some.inj hrun
  have hlt : o < 2048 := by
    refine hin o (List.mem_append_right _ ?_)
    simp [lastReads, size_toNat ho]
  have hz : buf o = 0 := by simpa [searchGuard, size_toNat ho] using hguard
  exact ⟨hlt, [], o, .stop o, hlt, by simp, Or.inl hz⟩

/-- The first round reads the length byte of its record, and all it reads lies in the sector. -/
theorem round_inside {n o : ℕ} {reads : List ℕ} {t : (BitVec 32 × Bool) × List ℕ}
    (ho : o < 2 ^ 32) (hguard : searchGuard buf (BitVec.ofNat 32 o, false) = true)
    (hrun : searchWalkM (n + 1) buf fname ((BitVec.ofNat 32 o, false), reads) = some t)
    (hin : ∀ y ∈ t.2 ++ lastReads t.1, y < 2048) : o < 2048 ∧
      ∀ y ∈ recordReads buf fname (BitVec.ofNat 32 o), y < 2048 := by
  unfold searchWalkM at hrun
  rw [whileLoop_succ (c := fun s : (BitVec 32 × Bool) × List ℕ => searchGuard buf s.1)
    (f := fun s => some (searchRecordM buf fname s)) hguard rfl] at hrun
  have hsub : reads ++ recordReads buf fname (BitVec.ofNat 32 o) ⊆ t.2 :=
    searchWalkM_reads_subset hrun
  have hround : ∀ y ∈ recordReads buf fname (BitVec.ofNat 32 o), y < 2048 := fun y hy =>
    hin y (List.mem_append_left _ (hsub (List.mem_append_right _ hy)))
  refine ⟨hround o ?_, hround⟩
  unfold recordReads
  rw [size_toNat ho]
  exact List.mem_cons_self

variable (h0 : ∀ c ∈ fname, c ≠ 0)

include h0

/-- A walk that ends and stays inside the sector has come along records that do. -/
theorem records_of_walk {n o : ℕ} {reads : List ℕ} {t : (BitVec 32 × Bool) × List ℕ}
    (ho : o < 2 ^ 32)
    (hrun : searchWalkM n buf fname ((BitVec.ofNat 32 o, false), reads) = some t)
    (hin : ∀ y ∈ t.2 ++ lastReads t.1, y < 2048) : o < 2048 ∧
      ∃ offs e, Chain (fun x => (buf x).toNat) 1 2048 o offs e ∧ e < 2048 ∧
        (∀ x ∈ offs, DiffersInside buf fname x) ∧ (buf e = 0 ∨ MatchesInside buf fname e) := by
  induction n generalizing o reads with
  | zero =>
      cases hguard : searchGuard buf (BitVec.ofNat 32 o, false) with
      | false => exact records_of_stop ho hguard hrun hin
      | true => simp [searchWalkM, whileLoop, hguard] at hrun
  | succ n ih =>
      cases hguard : searchGuard buf (BitVec.ofNat 32 o, false) with
      | false => exact records_of_stop ho hguard hrun hin
      | true =>
          obtain ⟨hlt, hround⟩ := round_inside ho hguard hrun hin
          have hne : buf o ≠ 0 := by
            simpa [searchGuard, size_toNat ho] using hguard
          refine ⟨hlt, ?_⟩
          by_cases hm : MatchAt buf fname o
          · rw [searchWalkM_match h0 (by omega) hne hm] at hrun
            obtain rfl := Option.some.inj hrun
            have hloc : (DIR_EXT_LOC + BitVec.ofNat 32 o).toNat = o + 2 :=
              field_toNat _ (by decide) (by omega)
            have hsz : (DIR_EXT_SIZE + BitVec.ofNat 32 o).toNat = o + 10 :=
              field_toNat _ (by decide) (by omega)
            refine ⟨[], o, .stop o, hlt, by simp, Or.inr ((recordReads_match h0 hlt hm).mp ?_)⟩
            intro y hy
            refine hin y ?_
            unfold lastReads
            rw [if_pos rfl, hloc, hsz, ← List.append_assoc, List.append_assoc,
              List.append_assoc]
            rw [List.append_assoc] at hy
            exact List.mem_append_right _ hy
          · rw [searchWalkM_next h0 (by omega) hne hm] at hrun
            have hlen := (buf o).isLt
            obtain ⟨hlt', offs, e, hc, he, hoffs, hend⟩ := ih (by omega) hrun
            have hd := (recordReads_differs h0 hlt hm).mp hround
            have hpos : 1 ≤ (buf o).toNat := by
              by_contra hz
              exact hne (BitVec.eq_of_toNat_eq (by simpa using hz))
            exact ⟨o :: offs, e, .record hpos (by omega) hc, he,
              List.forall_mem_cons.mpr ⟨hd, hoffs⟩, hend⟩

/-- Along records that stay inside the sector the walk ends and does so too. -/
theorem walk_of_records (h : RecordsInside buf fname) :
    ∃ n t, searchWalkM n buf fname ((0, false), []) = some t ∧
      ∀ y ∈ t.2 ++ lastReads t.1, y < 2048 := by
  obtain ⟨offs, e, hc, he, hoffs, hend⟩ := h
  unfold CD_SECTOR_SIZE at hc he
  have hpre : ∀ y ∈ offs.flatMap (fun x => recordReads buf fname (BitVec.ofNat 32 x)),
      y < 2048 := by
    intro y hy
    obtain ⟨x, hx, hyx⟩ := List.mem_flatMap.mp hy
    have hxin := hc.mem hx
    exact (recordReads_differs h0 (by omega) (hoffs x hx).not_matchAt).mpr (hoffs x hx) y hyx
  have hmiss : ∀ x ∈ offs, ¬ MatchAt buf fname x := fun x hx => (hoffs x hx).not_matchAt
  by_cases hz : buf e = 0
  · have hguard : searchGuard buf (BitVec.ofNat 32 e, false) = false := by
      simp [searchGuard, size_toNat (show e < 2 ^ 32 by omega), hz]
    refine ⟨0 + offs.length, _,
      (searchWalkM_miss h0 Nat.one_pos hc hmiss 0 []).trans (searchWalkM_stop hguard 0 _), ?_⟩
    intro y hy
    rcases List.mem_append.mp hy with hy | hy
    · exact hpre y hy
    · rw [lastReads, if_neg (by simp), size_toNat (by omega), List.mem_singleton] at hy
      omega
  · have hm := hend.resolve_left hz
    have hloc : (DIR_EXT_LOC + BitVec.ofNat 32 e).toNat = e + 2 :=
      field_toNat _ (by decide) (by omega)
    have hsz : (DIR_EXT_SIZE + BitVec.ofNat 32 e).toNat = e + 10 :=
      field_toNat _ (by decide) (by omega)
    refine ⟨0 + 1 + offs.length, _,
      searchWalkM_hit h0 Nat.one_pos hc hmiss (by omega) hz hm.matchAt 0 [], ?_⟩
    intro y hy
    rw [lastReads, if_pos rfl, hloc, hsz, List.nil_append, List.flatMap_append,
      List.flatMap_singleton, List.append_assoc] at hy
    rcases List.mem_append.mp hy with hy | hy
    · exact hpre y hy
    · refine (recordReads_match h0 he hm.matchAt).mpr hm y ?_
      rw [List.append_assoc]
      exact hy

end walk

/-- **Reads of a search.**  Whatever lies behind the sector, the search ends and reads only its
2048 bytes exactly when its records are as `RecordsInside` says. -/
theorem searchSafe_iff {fname : List (BitVec 8)} (h0 : ∀ c ∈ fname, c ≠ 0) (fsize : BitVec 32)
    (buf : Buf) : SearchSafe fsize buf fname ↔ RecordsInside buf fname := by
  rw [searchSafe_iff_walk]
  constructor
  · rintro ⟨n, t, hrun, hin⟩
    exact (records_of_walk h0 (by norm_num) hrun hin).2
  · exact walk_of_records h0

/-- The directory itself, its parent and the kernel. -/
def rootSector (x : ℕ) : BitVec 8 :=
  if x = 0 ∨ x = 34 then 34 else if x = 67 then 1 else if x = 68 then 46
  else if 101 ≤ x then kernel_name.getD (x - 101) 0 else 0

theorem searchSafe_iff_root : SearchSafe 0 rootSector kernel_name := by
  have hchain : Chain (fun x => (rootSector x).toNat) 1 CD_SECTOR_SIZE 0 [0, 34] 68 :=
    .record (by decide) (by decide) (.record (by decide) (by decide) (.stop _))
  have hdiffers : ∀ o ∈ [0, 34], DiffersInside rootSector kernel_name o := by
    intro o ho
    refine ⟨0, by decide, by decide, ?_⟩
    revert o
    decide
  exact (searchSafe_iff (by decide) 0 rootSector).mpr
    ⟨[0, 34], 68, hchain, by decide, hdiffers, Or.inr ⟨by decide, by decide, by decide⟩⟩

/-- A sector of sixteen records of 128 bytes. -/
def fullSector (x : ℕ) : BitVec 8 := if x % 128 = 0 then 128 else 0

/-- Whatever follows it in memory, the search reads that too. -/
theorem not_searchSafe_full {buf : Buf} (hbuf : ∀ x < CD_SECTOR_SIZE, buf x = fullSector x)
    (fsize : BitVec 32) : ¬ SearchSafe fsize buf kernel_name := by
  intro hsafe
  obtain ⟨n, t, hrun, hin⟩ := searchSafe_iff_walk.mp hsafe
  obtain ⟨-, offs, e, hc, he, -, hend⟩ := records_of_walk (by decide) (by norm_num) hrun hin
  have hdvd : 128 ∣ e := by
    refine hc.dvd Nat.one_pos ?_ (Nat.dvd_zero _)
    intro x hx hdvd
    rw [hbuf x hx, fullSector, if_pos (Nat.mod_eq_zero_of_dvd hdvd)]
    decide
  have hlen : buf e = 128 := by
    rw [hbuf e he, fullSector, if_pos (by omega)]
  rcases hend with hz | ⟨-, -, hname⟩
  · rw [hlen] at hz
    exact absurd hz (by decide)
  · obtain ⟨hlt, hc⟩ := hname 0 (by decide)
    rw [hbuf _ hlt, fullSector, if_neg (by omega)] at hc
    exact absurd hc (by decide)

theorem search_fullSector : ¬ SearchSafe 0
    (fun x => if x < CD_SECTOR_SIZE then fullSector x else 0) kernel_name :=
  not_searchSafe_full (fun _ hx => if_pos hx) 0

end Ziemniak.Stage2
