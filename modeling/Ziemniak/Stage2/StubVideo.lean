import Ziemniak.Stage2.StubStages

/-! # The video mode in memory

`findVBEmode` of the 16-bit code keeps its list, its buffer and its two variables in memory.  As
long as the list lies outside what the search writes, it is the search of the modes
(`findVBEmode_searches`), and `.SetVBE` copies the answer about the mode that it sets. -/

namespace Ziemniak.Stage2.Stub

open BareMetal BareMetal.RealMode

/-! ### What it writes -/

section writes

variable {b : ℕ} {m : Mem} {a20 : Bool} {es : BitVec 16} {v : RealModeData} {s : Cpu16}

theorem queryMode_mem (bios : VideoBios) (cx : BitVec 16) (hes : s.es = MEMMAP_SEG) :
    queryMode bios cx s = { s with
      mem := (bios.query cx).elim s.mem fun info x =>
        if 0xA000 + s.di.toNat ≤ x ∧ x < 0xA000 + s.di.toNat + 256 then
          info.buffer (x - (0xA000 + s.di.toNat))
        else s.mem x } := by
  have hdi := s.di.isLt
  have hseg : MEMMAP_SEG.toNat * 16 = 0xA000 := rfl
  have hlin : linear s.a20 s.es s.di = 0xA000 + s.di.toNat := by
    rw [hes, linear_low (by omega), hseg]
  unfold queryMode
  cases bios.query cx with
  | none => rfl
  | some info =>
      simp only [hlin, Option.elim_some]

theorem queryMode_at (bios : VideoBios) (cx : BitVec 16)
    (h : At (Touched b) m a20 MEMMAP_SEG v s) (hdi : s.di.toNat ≤ 512) :
    At (Touched b) m a20 MEMMAP_SEG v (queryMode bios cx s) := by
  rw [queryMode_mem bios cx h.es]
  apply h.scratch
  intro x _ hx
  cases bios.query cx with
  | none => rfl
  | some info => exact if_neg (by omega)

theorem setMode_at (h : At (Touched b) m a20 es v s) (cx : BitVec 16) :
    At (Touched b) m a20 es v (s.setWord s.ds screen_mode cx) := by
  rw [h.ds, Cpu16.setWord_low (by decide) (by decide)]
  refine h.scratch fun x hx _ => ?_
  have hplace : (0 : BitVec 16).toNat * 16 + screen_mode.toNat = 0x2026 := rfl
  rw [hplace, writeLE_of_not_mem (by omega)]

theorem setPixels_at (h : At (Touched b) m a20 es v s) (edx : BitVec 32) :
    At (Touched b) m a20 es v (s.setDword s.ds screen_pixels edx) := by
  rw [h.ds, Cpu16.setDword_low (by decide) (by decide)]
  refine h.scratch fun x hx _ => ?_
  have hplace : (0 : BitVec 16).toNat * 16 + screen_pixels.toNat = 0x2022 := rfl
  rw [hplace, writeLE_of_not_mem (by omega)]

theorem getMaximum_at (bios : VideoBios) (h : At (Touched b) m a20 MEMMAP_SEG v s)
    (hdi : s.di = 512) : At (Touched b) m a20 MEMMAP_SEG v (getMaximum bios s) ∧
      (getMaximum bios s).di = 512 := by
  have hquery := queryMode_at bios (s.word s.fs s.si ||| 0x4000) h (by rw [hdi]; decide)
  have hqueryDi : (queryMode bios (s.word s.fs s.si ||| 0x4000) s).di = 512 := by
    rw [queryMode_mem bios _ h.es, ← hdi]
  have hcheck : At (Touched b) m a20 MEMMAP_SEG v (checkMode bios s) ∧
      (checkMode bios s).di = 512 := by
    unfold checkMode
    simp only
    split_ifs
    · exact ⟨hquery, hqueryDi⟩
    · exact ⟨hquery, hqueryDi⟩
    · exact ⟨hquery, hqueryDi⟩
    · exact ⟨hquery, hqueryDi⟩
    · exact ⟨setPixels_at (setMode_at hquery _) _, hqueryDi⟩
  obtain ⟨hat, hdi'⟩ := hcheck
  exact ⟨⟨hat.ds, hat.es, hat.stack, hat.a20, hat.frame, hat.data⟩, hdi'⟩

theorem findVBEmode_at (bios : VideoBios) (fuel : ℕ) {t : Cpu16}
    (h : At (Touched b) m a20 MEMMAP_SEG v s ∧ s.di = 0)
    (ht : findVBEmode bios fuel s = some (.ok t)) : At (Touched b) m a20 MEMMAP_SEG v t := by
  obtain ⟨hs, hdi⟩ := h
  unfold findVBEmode at ht
  split_ifs at ht
  · obtain rfl := Except.ok.inj (Option.some.inj ht)
    exact setMode_at hs _
  · obtain ⟨u, hloop, hu⟩ := Option.map_eq_some_iff.mp ht
    obtain rfl := Except.ok.inj hu
    have hfirst : At (Touched b) m a20 MEMMAP_SEG v { s with
        si := s.word s.es 0x0E
        fs := s.word s.es 0x10
        di := s.di + 512 } := ⟨hs.ds, hs.es, hs.stack, hs.a20, hs.frame, hs.data⟩
    have hround := getMaximum_at bios hfirst (by rw [hdi]; rfl)
    have hend := whileLoop_invariant
      (I := fun s => At (Touched b) m a20 MEMMAP_SEG v s ∧ s.di = 512)
      (by
        intro s s' hI _ hs'
        obtain rfl := Option.some.inj hs'
        exact getMaximum_at bios hI.1 hI.2)
      hround hloop
    exact hend.1.1

end writes

/-! ### The search -/

section search

variable {b : ℕ} {m M : Mem} {a20 : Bool} {v : RealModeData} {s : Cpu16} {u : ModeSearch}
  {fs si : BitVec 16} {bios : VideoBios}

/-- What the search changes. -/
def Scratch (x : ℕ) : Prop := (0x2022 ≤ x ∧ x < 0x2028) ∨ (0xA200 ≤ x ∧ x < 0xA300)

/-- The list at `fs:si`, in memory that the search leaves alone. -/
structure ListAt (b : ℕ) (a20 : Bool) (M : Mem) (fs si : BitVec 16) (l : List (BitVec 16)) :
    Prop where
  list : ModeList (fun off => load16 a20 M fs off) si l
  ne : l ≠ []
  apart : ∀ i ≤ l.length, ∀ j ∈ [0, 1],
    ¬ Scratch (linear a20 fs (si + BitVec.ofNat 16 (2 * i) + BitVec.ofNat 16 j)) ∧
      ¬ Collected b (linear a20 fs (si + BitVec.ofNat 16 (2 * i) + BitVec.ofNat 16 j))

/-- Behind `n` rounds the variables and the buffer hold what the search knows. -/
structure Searching (b : ℕ) (M : Mem) (a20 : Bool) (fs si : BitVec 16) (n : ℕ) (s : Cpu16)
    (u : ModeSearch) : Prop where
  ds : s.ds = 0
  es : s.es = MEMMAP_SEG
  a20 : s.a20 = a20
  di : s.di = 512
  fs : s.fs = fs
  place : s.si = si + BitVec.ofNat 16 (2 * n)
  si : u.si = s.si
  info : ∀ i < 256, s.mem (0xA200 + i) = u.info.buffer i
  mode : BitVec.ofNat 16 (readLE 2 s.mem 0x2026) = u.screen_mode
  pixels : BitVec.ofNat 32 (readLE 4 s.mem 0x2022) = u.screen_pixels
  frame : ∀ x, ¬ Scratch x → ¬ Collected b x → s.mem x = M x

theorem ListAt.word {l : List (BitVec 16)} (h : ListAt b a20 M fs si l) {n : ℕ}
    (hn : n ≤ l.length) (hs : Searching b M a20 fs si n s u) :
    s.word s.fs s.si = load16 a20 M fs u.si := by
  have hbyte : ∀ j ∈ [0, 1], load8 a20 s.mem fs (si + BitVec.ofNat 16 (2 * n) + BitVec.ofNat 16 j)
      = load8 a20 M fs (si + BitVec.ofNat 16 (2 * n) + BitVec.ofNat 16 j) := fun j hj =>
    hs.frame _ (h.apart n hn j hj).1 (h.apart n hn j hj).2
  have h0 := hbyte 0 (by decide)
  have h1 := hbyte 1 (by decide)
  rw [BitVec.add_zero] at h0
  unfold Cpu16.word
  rw [hs.a20, hs.si, hs.fs, hs.place]
  exact load16_congr h0 h1

theorem Searching.queried {n : ℕ} (hs : Searching b M a20 fs si n s u) (cx : BitVec 16) :
    Searching b M a20 fs si n (queryMode bios cx s)
      { u with info := (bios.query cx).getD u.info } := by
  have hmem : ∀ x, (queryMode bios cx s).mem x = (bios.query cx).elim (s.mem x) fun info =>
      if 0xA200 ≤ x ∧ x < 0xA300 then info.buffer (x - 0xA200) else s.mem x := by
    intro x
    rw [queryMode_mem bios cx hs.es, hs.di]
    cases bios.query cx <;> rfl
  have hread : ∀ {k a}, a + k ≤ 0xA200 →
      readLE k (queryMode bios cx s).mem a = readLE k s.mem a := by
    intro k a ha
    refine readLE_congr fun x _ hx => ?_
    rw [hmem]
    cases bios.query cx with
    | none => rfl
    | some info => exact if_neg (by omega)
  have hregs := queryMode_mem (s := s) bios cx hs.es
  refine ⟨?_, ?_, ?_, ?_, ?_, ?_, ?_, ?_, ?_, ?_, ?_⟩
  · rw [hregs]; exact hs.ds
  · rw [hregs]; exact hs.es
  · rw [hregs]; exact hs.a20
  · rw [hregs]; exact hs.di
  · rw [hregs]; exact hs.fs
  · rw [hregs]; exact hs.place
  · rw [hregs]; exact hs.si
  · intro i hi
    rw [hmem]
    cases bios.query cx with
    | none => exact hs.info i hi
    | some info =>
        rw [Option.elim_some, if_pos (by omega), Nat.add_sub_cancel_left]
        rfl
  · rw [hread (by decide)]
    exact hs.mode
  · rw [hread (by decide)]
    exact hs.pixels
  · intro x hx hx'
    rw [← hs.frame x hx hx', hmem]
    unfold Scratch at hx
    cases bios.query cx with
    | none => rfl
    | some info => exact if_neg (by omega)

theorem Searching.byte_eq {n : ℕ} (hs : Searching b M a20 fs si n s u) :
    s.byte s.es (s.di + 0x19) = u.info.bpp := by
  have hseg : MEMMAP_SEG.toNat * 16 + (512 + 0x19 : BitVec 16).toNat = 0xA219 := rfl
  rw [hs.es, hs.di, Cpu16.byte_low (by decide), hseg]
  exact hs.info 0x19 (by decide)

theorem Searching.word_eq {n : ℕ} (hs : Searching b M a20 fs si n s u) {off : BitVec 16}
    (hoff : off.toNat < 255) : s.word s.es (s.di + off) = u.info.word off.toNat := by
  have hplace : (512 + off : BitVec 16).toNat = 512 + off.toNat := by
    rw [BitVec.toNat_add]
    exact Nat.mod_eq_of_lt (by show 512 + _ < _; omega)
  have hseg : MEMMAP_SEG.toNat * 16 + 512 = 0xA200 := rfl
  have hseg' : MEMMAP_SEG.toNat = 0xA00 := rfl
  rw [hs.es, hs.di, Cpu16.word_bytes (by omega) (by omega), hplace, ← Nat.add_assoc, hseg,
    Nat.add_assoc]
  exact congrArg₂ (· ++ ·) (hs.info _ (by omega)) (hs.info _ (by omega))

theorem Searching.taken {n : ℕ} (hs : Searching b M a20 fs si n s u) (cx : BitVec 16)
    (edx : BitVec 32) :
    Searching b M a20 fs si n ((s.setWord s.ds screen_mode cx).setDword s.ds screen_pixels edx)
      { u with
        screen_mode := cx
        screen_pixels := edx } := by
  obtain ⟨ds, es, fs', si', di, stack, a, mem⟩ := s
  obtain rfl : ds = 0 := hs.ds
  have hmode : (0 : BitVec 16).toNat * 16 + screen_mode.toNat = 0x2026 := rfl
  have hpixels : (0 : BitVec 16).toNat * 16 + screen_pixels.toNat = 0x2022 := rfl
  show Searching b M a20 fs si n (Cpu16.setDword (Cpu16.setWord _ 0 screen_mode cx) 0 screen_pixels
    edx) _
  rw [Cpu16.setWord_low (by decide) (by decide), Cpu16.setDword_low (by decide) (by decide), hmode,
    hpixels]
  have hother : ∀ x, ¬ (0x2022 ≤ x ∧ x < 0x2028) →
      writeLE 4 (writeLE 2 mem 0x2026 cx.toNat) 0x2022 edx.toNat x = mem x := by
    intro x hx
    rw [writeLE_of_not_mem (by omega), writeLE_of_not_mem (by omega)]
  refine ⟨rfl, hs.es, hs.a20, hs.di, hs.fs, hs.place, hs.si, ?_, ?_, ?_, ?_⟩
  · intro i hi
    exact (hother _ (by omega)).trans (hs.info i hi)
  · simp only
    rw [readLE_writeLE_disjoint (by decide), ofNat_readLE_writeLE 16 2 rfl]
  · simp only
    rw [ofNat_readLE_writeLE 32 4 rfl]
  · intro x hx hx'
    have hvar : ¬ (0x2022 ≤ x ∧ x < 0x2028) := fun h => hx (Or.inl h)
    exact (hother x hvar).trans (hs.frame x hx hx')

/-- One round of the code is one of the search. -/
theorem Searching.round (bios : VideoBios) {l : List (BitVec 16)} (hl : ListAt b a20 M fs si l)
    {n : ℕ} (hn : n ≤ l.length) (hs : Searching b M a20 fs si n s u) :
    Searching b M a20 fs si (n + 1) (getMaximum bios s)
      (Stage2.getMaximum bios (fun off => load16 a20 M fs off) u) := by
  have hword := hl.word hn hs
  obtain ⟨q, hq⟩ : ∃ q, q = queryMode bios (s.word s.fs s.si ||| 0x4000) s := ⟨_, rfl⟩
  obtain ⟨w, hw⟩ : ∃ w : ModeSearch, w =
      { u with info := (bios.query (load16 a20 M fs u.si ||| 0x4000)).getD u.info } := ⟨_, rfl⟩
  have hquery : Searching b M a20 fs si n q w := by
    rw [hq, hw, ← hword]
    exact hs.queried _
  have hagain := hl.word hn hquery
  have hdword : q.dword q.ds screen_pixels = w.screen_pixels := by
    rw [hquery.ds, Cpu16.dword_low (by decide) (by decide)]
    exact hquery.pixels
  have hattr : q.word q.es q.di = w.info.attributes := by
    have h0 : q.word q.es (q.di + 0) = w.info.attributes := hquery.word_eq (by decide)
    have hzero : q.di + 0 = q.di := BitVec.add_zero q.di
    rw [hzero] at h0
    exact h0
  have hwidth : q.word q.es (q.di + 0x12) = w.info.width := hquery.word_eq (by decide)
  have hheight : q.word q.es (q.di + 0x14) = w.info.height := hquery.word_eq (by decide)
  have hsearch : Stage2.checkMode bios (fun off => load16 a20 M fs off) u =
      if w.info.bpp ≠ 32 then w
      else if w.info.attributes &&& 0x0001 = 0 then w
      else if 1000 ≤ w.info.height then w
      else if w.info.pixels ≤ w.screen_pixels then w
      else { w with
        screen_mode := load16 a20 M fs w.si ||| 0x4000
        screen_pixels := w.info.pixels } := by
    rw [hw]
    rfl
  have hcheck : Searching b M a20 fs si n (checkMode bios s)
      (Stage2.checkMode bios (fun off => load16 a20 M fs off) u) := by
    rw [hsearch]
    unfold checkMode ModeInfo.pixels
    simp only [← hq]
    rw [hquery.byte_eq, hattr, hwidth, hheight, hdword, hagain]
    split_ifs
    · exact hquery
    · exact hquery
    · exact hquery
    · exact hquery
    · exact hquery.taken _ _
  have hnext : si + BitVec.ofNat 16 (2 * n) + 2 = si + BitVec.ofNat 16 (2 * (n + 1)) := by
    rw [BitVec.add_assoc, Nat.mul_succ, BitVec.ofNat_add]
    rfl
  unfold getMaximum Stage2.getMaximum
  refine ⟨hcheck.ds, hcheck.es, hcheck.a20, hcheck.di, hcheck.fs, ?_, ?_, hcheck.info, hcheck.mode,
    hcheck.pixels, hcheck.frame⟩
  · exact (congrArg (· + 2) hcheck.place).trans hnext
  · exact congrArg (· + 2) hcheck.si

theorem Searching.run {l : List (BitVec 16)} (hl : ListAt b a20 M fs si l) {k n : ℕ} (hn : 0 < n)
    (hk : n + k = l.length) (hs : Searching b M a20 fs si n s u) :
    ∃ t w, Searching b M a20 fs si l.length t w ∧
      whileLoop (fun s => s.word s.fs s.si != 0xFFFF) (fun s => some (getMaximum bios s)) k s =
        some t ∧
      whileLoop (fun s : ModeSearch => load16 a20 M fs s.si != 0xFFFF)
        (fun s => some (Stage2.getMaximum bios (fun off => load16 a20 M fs off) s)) k u =
          some w := by
  induction k generalizing n s u with
  | zero =>
      obtain rfl : n = l.length := by omega
      have hword := hl.word le_rfl hs
      have hend : load16 a20 M fs u.si = 0xFFFF := by
        rw [hs.si, hs.place]
        exact hl.list.terminator
      refine ⟨s, u, hs, whileLoop_of_not ?_ 0, whileLoop_of_not ?_ 0⟩
      · rw [hword, hend]
        rfl
      · rw [hend]
        rfl
  | succ k ih =>
      have hword := hl.word (by omega) hs
      have hmode : load16 a20 M fs u.si ≠ 0xFFFF := by
        rw [hs.si, hs.place]
        exact hl.list.ne_terminator (by omega)
      obtain ⟨t, w, ht, hrun, hsearch⟩ := ih (Nat.succ_pos n) (by omega)
        (hs.round bios hl (by omega))
      refine ⟨t, w, ht, ?_, ?_⟩
      · have hguard : (s.word s.fs s.si != 0xFFFF) = true := by
          rw [hword]
          exact bne_iff_ne.mpr hmode
        rw [whileLoop_succ (c := fun s : Cpu16 => s.word s.fs s.si != 0xFFFF)
          (f := fun s => some (getMaximum bios s)) hguard rfl, hrun]
      · have hguard : (load16 a20 M fs u.si != 0xFFFF) = true := bne_iff_ne.mpr hmode
        rw [whileLoop_succ (c := fun s : ModeSearch => load16 a20 M fs s.si != 0xFFFF)
          (f := fun s => some (Stage2.getMaximum bios (fun off => load16 a20 M fs off) s)) hguard
          rfl, hsearch]

/-- The modes that the search goes through, and what it finds in its buffer. -/
structure ModesAt (b : ℕ) (a20 : Bool) (M : Mem) (l : List (BitVec 16)) : Prop where
  list : ¬ load8 a20 M MEMMAP_SEG 0x05 < 0x02 →
    ListAt b a20 M (load16 a20 M MEMMAP_SEG 0x10) (load16 a20 M MEMMAP_SEG 0x0E) l
  fresh : ∀ x, 0x2022 ≤ x → x < 0x2028 → M x = 0
  kept : ∀ x, (0x2022 ≤ x ∧ x < 0x2028) ∨ (0xA000 ≤ x ∧ x < 0xA300) → x ≠ b

/-- The search of `findVBEmode`, with the list in memory. -/
def searchAt (bios : VideoBios) (a20 : Bool) (M : Mem) (fuel : ℕ) : Option (BitVec 16) :=
  Stage2.findVBEmode bios (fun off => load16 a20 M (load16 a20 M MEMMAP_SEG 0x10) off) fuel
    (load8 a20 M MEMMAP_SEG 0x05) (load16 a20 M MEMMAP_SEG 0x0E) ⟨fun i => M (0xA200 + i)⟩

section entry

variable {l : List (BitVec 16)} (hM : ModesAt b a20 M l)
  (hs : At (Collected b) M a20 MEMMAP_SEG v s)

include hM hs

theorem ModesAt.frame {x : ℕ} (hx : (0x2022 ≤ x ∧ x < 0x2028) ∨ (0xA000 ≤ x ∧ x < 0xA300)) :
    s.mem x = M x := by
  refine hs.frame x ?_
  have hlost := hM.kept x hx
  unfold Collected
  omega

theorem ModesAt.byte {off : BitVec 16} (hoff : off.toNat < 0x300) :
    load8 a20 s.mem MEMMAP_SEG off = load8 a20 M MEMMAP_SEG off := by
  have hseg : MEMMAP_SEG.toNat * 16 = 0xA000 := rfl
  unfold load8
  rw [linear_low (by omega), hseg]
  exact hM.frame hs (by omega)

theorem ModesAt.word {off : BitVec 16} (hoff : off.toNat + 1 < 0x300) :
    s.word s.es off = load16 a20 M MEMMAP_SEG off := by
  have hnext : (off + 1).toNat = off.toNat + 1 := toNat_add_ofNat (n := 1) (by omega)
  unfold Cpu16.word
  rw [hs.a20, hs.es]
  exact load16_congr (hM.byte hs (by omega)) (hM.byte hs (by omega))

/-- In front of the first round the buffer is fresh and no mode is chosen. -/
theorem ModesAt.start (hdi : s.di = 0) :
    Searching b M a20 (load16 a20 M MEMMAP_SEG 0x10) (load16 a20 M MEMMAP_SEG 0x0E) 0
      { s with
        si := s.word s.es 0x0E
        fs := s.word s.es 0x10
        di := s.di + 512 }
      ⟨load16 a20 M MEMMAP_SEG 0x0E, ⟨fun i => M (0xA200 + i)⟩, 0, 0⟩ := by
  have hzero : ∀ {n a}, 0x2022 ≤ a → a + n ≤ 0x2028 → readLE n s.mem a = 0 := fun hlo hhi =>
    readLE_zero fun x hx hx' => by
      rw [hM.frame hs (by omega)]
      exact hM.fresh x (by omega) (by omega)
  have hsi : s.word s.es 0x0E = load16 a20 M MEMMAP_SEG 0x0E := hM.word hs (by decide)
  refine ⟨hs.ds, hs.es, hs.a20, ?_, hM.word hs (by decide), ?_, hsi.symm, ?_, ?_, ?_, ?_⟩
  · simp only [hdi]
    rfl
  · simp only [hsi]
    exact (BitVec.add_zero _).symm
  · intro i hi
    exact hM.frame hs (by omega)
  · simp only
    rw [hzero (by decide) (by decide)]
    rfl
  · simp only
    rw [hzero (by decide) (by decide)]
    rfl
  · exact fun x _ hx => hs.frame x hx

/-- **`findVBEmode`** ends with the mode of the search in its variable. -/
theorem findVBEmode_searches (bios : VideoBios) (hdi : s.di = 0) {fuel : ℕ}
    (hfuel : l.length ≤ fuel + 1) :
    ∃ t mode, findVBEmode bios fuel s = some (.ok t) ∧
      searchAt bios a20 M fuel = some mode ∧ t.word 0 screen_mode = mode := by
  have hversion : s.byte s.es 0x05 = load8 a20 M MEMMAP_SEG 0x05 := by
    unfold Cpu16.byte
    rw [hs.a20, hs.es]
    exact hM.byte hs (by decide)
  by_cases hlegacy : load8 a20 M MEMMAP_SEG 0x05 < 0x02
  · have hrun : findVBEmode bios fuel s = some (.ok (s.setWord s.ds screen_mode 0x4115)) := by
      unfold findVBEmode
      rw [hversion, if_pos hlegacy]
    have hsearch : searchAt bios a20 M fuel = some 0x4115 := if_pos hlegacy
    refine ⟨s.setWord s.ds screen_mode 0x4115, 0x4115, hrun, hsearch, ?_⟩
    rw [hs.ds, Cpu16.setWord_low (by decide) (by decide), Cpu16.word_low (by decide) (by decide),
      ofNat_readLE_writeLE 16 2 rfl]
  · have hl := hM.list hlegacy
    have hlen : 0 < l.length := List.length_pos_iff.mpr hl.ne
    have hstart := hM.start hs hdi
    obtain ⟨first, hfirst⟩ : ∃ first : Cpu16, first = { s with
        si := s.word s.es 0x0E
        fs := s.word s.es 0x10
        di := s.di + 512 } := ⟨_, rfl⟩
    rw [← hfirst] at hstart
    obtain ⟨t, w, ht, hrun, hsearch⟩ := (hstart.round bios hl (Nat.zero_le _)).run
      hl (k := l.length - 1) Nat.one_pos (by omega)
    have hmore : l.length - 1 ≤ fuel := by omega
    have hends : findVBEmode bios fuel s = some (.ok t) := by
      unfold findVBEmode
      rw [hversion, if_neg hlegacy]
      simp only [← hfirst]
      rw [whileLoop_mono hmore hrun, Option.map_some]
    have hmode : searchAt bios a20 M fuel = some w.screen_mode := by
      unfold searchAt Stage2.findVBEmode
      rw [if_neg hlegacy, whileLoop_mono hmore hsearch, Option.map_some]
    refine ⟨t, w.screen_mode, hends, hmode, ?_⟩
    rw [← ht.mode, Cpu16.word_low (by decide) (by decide)]
    rfl

end entry

end search

/-! ### The two stages -/

section stages

variable {b : ℕ} {m : Mem} {a20 : Bool} {v : RealModeData} {s : Cpu16}

/-- **`findVBEmode`**, for a list in memory. -/
theorem findVBEmode_spec (bios : VideoBios) {fuel : ℕ} {l : List (BitVec 16)}
    (hM : ModesAt b a20 m l) (hfuel : l.length ≤ fuel + 1) :
    Stage.Spec (fun s => At (Collected b) m a20 MEMMAP_SEG v s ∧ s.di = 0) (findVBEmode bios fuel)
      (fun s => At (Touched b) m a20 MEMMAP_SEG v s ∧
        searchAt bios a20 m fuel = some (s.word 0 screen_mode)) (GivesUp b m) where
  ok s t hs ht := by
    obtain ⟨u, mode, hu, hmode, hword⟩ := findVBEmode_searches hM hs.1 bios hs.2 hfuel
    rw [hu] at ht
    obtain rfl := Except.ok.inj (Option.some.inj ht)
    refine ⟨findVBEmode_at bios fuel ⟨hs.1.mono (fun _ => touched_of_collected) fun _ _ => rfl,
      hs.2⟩ hu, ?_⟩
    rw [hword]
    exact hmode
  error s e hs he := by
    obtain ⟨u, mode, hu, -⟩ := findVBEmode_searches hM hs.1 bios hs.2 hfuel
    rw [hu] at he
    cases he

theorem findVBEmode_decides (bios : VideoBios) {fuel : ℕ} {l : List (BitVec 16)}
    (hM : ModesAt b a20 m l) (hfuel : l.length ≤ fuel + 1) :
    Stage.Decides (fun s => At (Collected b) m a20 MEMMAP_SEG v s ∧ s.di = 0)
      (findVBEmode bios fuel) none := by
  intro s hs
  obtain ⟨u, -, hu, -⟩ := findVBEmode_searches hM hs.1 bios hs.2 hfuel
  exact ⟨_, hu, rfl⟩

/-- The members that describe a mode. -/
def withMode (info : ModeInfo) (v : RealModeData) : RealModeData :=
  { v with
    framebuf_ptr := info.dword 0x28
    red_pos := info.buffer 0x20
    green_pos := info.buffer 0x22
    blue_pos := info.buffer 0x24
    rsrvd_pos := info.buffer 0x26
    scr_width := info.word 0x12
    scr_height := info.word 0x14 }

/-- What is saved is what the answer says. -/
theorem saveMode_at {info : ModeInfo} (h : At (Touched b) m a20 MEMMAP_SEG v s)
    (hinfo : ∀ i < 256, s.mem (0xA000 + i) = info.buffer i) :
    At (Touched b) m a20 MEMMAP_SEG (withMode info v) (saveMode s) ∧
      ∀ x, 0x201C ≤ x → (saveMode s).mem x = s.mem x := by
  obtain ⟨ds, es, fs, si, di, stack, a, mem⟩ := s
  obtain rfl : ds = 0 := h.ds
  obtain rfl : es = MEMMAP_SEG := h.es
  have hlabels : (rmdLabel .framebuf_ptr).toNat = 0x2008 ∧ (rmdLabel .red_pos).toNat = 0x2010 ∧
      (rmdLabel .green_pos).toNat = 0x2011 ∧ (rmdLabel .blue_pos).toNat = 0x2012 ∧
      (rmdLabel .rsrvd_pos).toNat = 0x2013 ∧ (rmdLabel .scr_width).toNat = 0x2018 ∧
      (rmdLabel .scr_height).toNat = 0x201A := by decide
  have hseg : MEMMAP_SEG.toNat = 0xA00 := rfl
  have hword : ∀ off : BitVec 16, off.toNat < 255 →
      Cpu16.word ⟨0, MEMMAP_SEG, fs, si, di, stack, a, mem⟩ MEMMAP_SEG off =
        info.word off.toNat := by
    intro off hoff
    rw [Cpu16.word_bytes (by omega) (by omega), hseg]
    exact congrArg₂ (· ++ ·) (hinfo (off.toNat + 1) (by omega)) (hinfo off.toNat (by omega))
  have hdword : BitVec.ofNat 32 (readLE 4 mem 0xA028) = info.dword 0x28 := by
    have hread : Cpu16.dword ⟨0, MEMMAP_SEG, fs, si, di, stack, a, mem⟩ MEMMAP_SEG 0x28 = _ :=
      Cpu16.dword_low (by decide) (by decide)
    have hhalves : Cpu16.dword ⟨0, MEMMAP_SEG, fs, si, di, stack, a, mem⟩ MEMMAP_SEG 0x28 =
        info.dword 0x28 := congrArg₂ (· ++ ·) (hword 0x2A (by decide)) (hword 0x28 (by decide))
    exact hread.symm.trans hhalves
  have hwidth : BitVec.ofNat 16 (readLE 2 mem 0xA012) = info.word 0x12 :=
    (Cpu16.word_low (by decide) (by decide)).symm.trans (hword 0x12 (by decide))
  have hheight : BitVec.ofNat 16 (readLE 2 mem 0xA014) = info.word 0x14 :=
    (Cpu16.word_low (by decide) (by decide)).symm.trans (hword 0x14 (by decide))
  have hred : mem 0xA020 = info.buffer 0x20 := hinfo 0x20 (by decide)
  have hgreen : mem 0xA022 = info.buffer 0x22 := hinfo 0x22 (by decide)
  have hblue : mem 0xA024 = info.buffer 0x24 := hinfo 0x24 (by decide)
  have hrsrvd : mem 0xA026 = info.buffer 0x26 := hinfo 0x26 (by decide)
  unfold saveMode
  simp (disch := decide) only [Cpu16.setDword_low, Cpu16.dword_low, Cpu16.byte_low,
    Cpu16.setByte_low, Cpu16.word_low, Cpu16.setWord_low, write8_eq_writeLE,
    readLE_writeLE_disjoint, hlabels, hseg, BitVec.reduceToNat, Nat.reduceMul, Nat.reduceAdd,
    writeLE_of_not_mem, hdword, hwidth, hheight, hred, hgreen, hblue, hrsrvd]
  refine ⟨⟨rfl, rfl, h.stack, h.a20, ?_, ?_⟩, ?_⟩
  · intro x hx
    have hx' := hx
    unfold Touched Collected at hx'
    rw [← h.frame x hx]
    simp (disch := omega) only [writeLE_of_not_mem]
  · rw [← h.data, readRealMode_eq, readRealMode_eq]
    simp (disch := decide) only [readLE_writeLE_disjoint, ofNat_readLE_writeLE 32 4 rfl,
      ofNat_readLE_writeLE 16 2 rfl, ofNat_readLE_writeLE 8 1 rfl]
    rfl
  · intro x hx
    simp (disch := omega) only [writeLE_of_not_mem]

/-- Behind an answer everything is saved, and then the mode is set. -/
theorem setVBE_answered {bios : VideoBios} {info : ModeInfo}
    (hs : At (Touched b) m a20 MEMMAP_SEG v s)
    (hinfo : bios.query (s.word s.ds screen_mode) = some info) :
    ∃ t, At (Touched b) m a20 MEMMAP_SEG (withMode info v) t ∧ setVBE bios s =
      if bios.setMode (s.word s.ds screen_mode) then some (.ok t)
      else some (.error (.SVGA_FAIL, t)) := by
  have hentry : At (Touched b) m a20 MEMMAP_SEG v { s with di := 0 } :=
    ⟨hs.ds, hs.es, hs.stack, hs.a20, hs.frame, hs.data⟩
  obtain ⟨q, hq⟩ : ∃ q, q = queryMode bios (s.word s.ds screen_mode) { s with di := 0 } := ⟨_, rfl⟩
  have hquery : At (Touched b) m a20 MEMMAP_SEG v q :=
    hq ▸ queryMode_at bios _ hentry (Nat.zero_le _)
  have hmem : ∀ x, q.mem x =
      if 0xA000 ≤ x ∧ x < 0xA000 + 256 then info.buffer (x - 0xA000) else s.mem x := by
    intro x
    rw [hq, queryMode_mem bios _ hentry.es, hinfo]
    rfl
  have hbuffer : ∀ i < 256, q.mem (0xA000 + i) = info.buffer i := by
    intro i hi
    rw [hmem, if_pos (by omega), Nat.add_sub_cancel_left]
  obtain ⟨hsaved, hkept⟩ := saveMode_at hquery hbuffer
  have hmode : (saveMode q).word (saveMode q).ds screen_mode = s.word s.ds screen_mode := by
    have hread : readLE 2 (saveMode q).mem 0x2026 = readLE 2 s.mem 0x2026 := by
      refine readLE_congr fun x hx hx' => ?_
      rw [hkept x (by omega), hmem, if_neg (by omega)]
    have hplace : (0 : BitVec 16).toNat * 16 + screen_mode.toNat = 0x2026 := rfl
    rw [hsaved.ds, hs.ds, Cpu16.word_low (by decide) (by decide),
      Cpu16.word_low (by decide) (by decide), hplace, hread]
  refine ⟨saveMode q, hsaved, ?_⟩
  unfold setVBE
  simp only [← hq, hmode, hinfo, Option.isNone_some, Bool.false_eq_true, if_false]

variable {bios : VideoBios} {mode : BitVec 16}

theorem setVBE_unanswered (hs : At (Touched b) m a20 MEMMAP_SEG v s)
    (hinfo : bios.query (s.word s.ds screen_mode) = none) :
    ∃ t, At (Touched b) m a20 MEMMAP_SEG v t ∧ setVBE bios s = some (.error (.SVGA_FAIL, t)) := by
  have hentry : At (Touched b) m a20 MEMMAP_SEG v { s with di := 0 } :=
    ⟨hs.ds, hs.es, hs.stack, hs.a20, hs.frame, hs.data⟩
  refine ⟨_, queryMode_at bios (s.word s.ds screen_mode) hentry (Nat.zero_le _), ?_⟩
  unfold setVBE
  simp only [hinfo, Option.isNone_none, if_true]

/-- **`.SetVBE`** saves what the BIOS says about the mode that it then switches to. -/
theorem setVBE_spec : Stage.Spec
    (fun s => At (Touched b) m a20 MEMMAP_SEG v s ∧ s.word 0 screen_mode = mode) (setVBE bios)
    (fun s => ∃ v', At (Touched b) m a20 MEMMAP_SEG v' s ∧ Stage2.setVBE bios mode v = some v')
    (GivesUp b m) where
  ok s t hs ht := by
    obtain ⟨hs, rfl⟩ := hs
    rw [← hs.ds]
    cases hinfo : bios.query (s.word s.ds screen_mode) with
    | none =>
        obtain ⟨u, -, heq⟩ := setVBE_unanswered hs hinfo
        rw [heq] at ht
        cases ht
    | some info =>
        obtain ⟨u, hu, heq⟩ := setVBE_answered hs hinfo
        rw [heq] at ht
        split_ifs at ht with hset
        · obtain rfl := Except.ok.inj (Option.some.inj ht)
          refine ⟨_, hu, ?_⟩
          unfold Stage2.setVBE
          rw [hinfo, Option.bind_some]
          exact if_pos hset
        · cases ht
  error s e hs he := by
    obtain ⟨hs, -⟩ := hs
    cases hinfo : bios.query (s.word s.ds screen_mode) with
    | none =>
        obtain ⟨u, hu, heq⟩ := setVBE_unanswered hs hinfo
        rw [heq] at he
        obtain rfl := Except.error.inj (Option.some.inj he)
        exact hu.givesUp (fun _ => id) _
    | some info =>
        obtain ⟨u, hu, heq⟩ := setVBE_answered hs hinfo
        rw [heq] at he
        split_ifs at he
        · cases he
        · obtain rfl := Except.error.inj (Option.some.inj he)
          exact hu.givesUp (fun _ => id) _

theorem setVBE_decides : Stage.Decides
    (fun s => At (Touched b) m a20 MEMMAP_SEG v s ∧ s.word 0 screen_mode = mode) (setVBE bios)
    (if ((bios.query mode).isSome && bios.setMode mode) = true then none else some .SVGA_FAIL) := by
  rintro s ⟨hs, rfl⟩
  rw [← hs.ds]
  cases hinfo : bios.query (s.word s.ds screen_mode) with
  | none =>
      obtain ⟨u, -, heq⟩ := setVBE_unanswered hs hinfo
      exact ⟨_, heq, rfl⟩
  | some info =>
      obtain ⟨u, -, heq⟩ := setVBE_answered hs hinfo
      rw [heq, Option.isSome_some, Bool.true_and]
      split_ifs
      · exact ⟨_, rfl, rfl⟩
      · exact ⟨_, rfl, rfl⟩

end stages

end Ziemniak.Stage2.Stub
