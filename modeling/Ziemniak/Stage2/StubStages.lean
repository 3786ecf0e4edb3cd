import Ziemniak.Stage2.Stub

/-! # What each stage leaves

What the stages of the 16-bit code leave for one another, one specification a stage: the members of
`rm_data` that are known by then, and which bytes may have changed.  A stage gives up with every
message of the image still in its place. -/

namespace Ziemniak.Stage2.Stub

open BareMetal BareMetal.RealMode

section between

variable {W : ℕ → Prop} {m : Mem} {a20 : Bool} {es : BitVec 16} {v : RealModeData} {s : Cpu16}

/-- What a stage leaves below its stack does not matter. -/
theorem At.below (h : At W m a20 es v s) (hW : ∀ x, 0x7FFE0 ≤ x → x < 0x7FFF0 → W x) {mem : Mem}
    (hmem : ∀ x, (x < 0x7FFE0 ∨ 0x7FFF0 ≤ x) → mem x = s.mem x) :
    At W m a20 es v { s with mem } := by
  refine ⟨h.ds, h.es, h.stack, h.a20, ?_, ?_⟩
  · intro x hx
    have hfar : x < 0x7FFE0 ∨ 0x7FFF0 ≤ x := by
      by_contra hin
      exact hx (hW x (by omega) (by omega))
    rw [← h.frame x hx]
    exact hmem x hfar
  · rw [← h.data]
    exact readRealMode_congr fun x _ hx => hmem x (Or.inl (by omega))

theorem At.givesUp (h : At W m a20 es v s) {b : ℕ} (hW : ∀ x, W x → Touched b x) (e : ErrMsg) :
    GivesUp b m (e, s) := ⟨h.ds, fun x hx _ => h.frame x fun hw => hx (hW x hw)⟩

theorem At.mono (h : At W m a20 es v s) {W' : ℕ → Prop} (hW : ∀ x, W x → W' x) {m' : Mem}
    (hm : ∀ x, ¬ W' x → m x = m' x) : At W' m' a20 es v s :=
  ⟨h.ds, h.es, h.stack, h.a20, fun x hx => (h.frame x fun hw => hx (hW x hw)).trans (hm x hx),
    h.data⟩

end between

theorem collected_stack {b x : ℕ} (hlo : 0x7FFE0 ≤ x) (hhi : x < 0x7FFF0) : Collected b x :=
  Or.inr (Or.inr (Or.inl ⟨hlo, hhi⟩))

theorem touched_of_collected {b x : ℕ} (h : Collected b x) : Touched b x := Or.inl h

section touched

variable {b : ℕ} {m : Mem} {a20 : Bool} {es : BitVec 16} {v : RealModeData} {s : Cpu16}

theorem At.scratch (h : At (Touched b) m a20 es v s) {mem : Mem}
    (hmem : ∀ x, ¬ (0x2022 ≤ x ∧ x < 0x2028) → ¬ (0xA000 ≤ x ∧ x < 0x1A018) → mem x = s.mem x) :
    At (Touched b) m a20 es v { s with mem } := by
  refine ⟨h.ds, h.es, h.stack, h.a20, ?_, ?_⟩
  · intro x hx
    have hx' := hx
    unfold Touched at hx'
    rw [← h.frame x hx]
    exact hmem x (by omega) (by omega)
  · rw [← h.data]
    exact readRealMode_congr fun x _ hx => hmem x (by omega) (by omega)

theorem At.pushed (h : At (Touched b) m a20 es v s) (ret : BitVec 16) :
    At (Touched b) m a20 es v { s with mem := writeLE 2 s.mem 0x7FFEE ret.toNat } :=
  h.below (fun _ hlo hhi => touched_of_collected (collected_stack hlo hhi))
    fun _ hx => writeLE_of_not_mem (by omega)

theorem At.memmap_size (h : At (Touched b) m a20 es v s) (n : BitVec 16) :
    At (Touched b) m a20 es { v with memmap_size := n }
      { s with mem := writeLE 2 s.mem 0x2016 n.toNat } := by
  refine ⟨h.ds, h.es, h.stack, h.a20, ?_, ?_⟩
  · intro x hx
    have hx' := hx
    unfold Touched Collected at hx'
    rw [← h.frame x hx]
    exact writeLE_of_not_mem (by omega)
  · rw [← h.data, readRealMode_eq, readRealMode_eq]
    simp (disch := decide) only [readLE_writeLE_disjoint, ofNat_readLE_writeLE 16 2 rfl]

end touched

/-! ### The drive -/

theorem init16_at {s : Cpu16} (h : s.stack = bootStack) (dl : BitVec 8) :
    At (fun x => x = 0x201C) s.mem s.a20 0 { readRealMode s.mem with boot_disk := dl }
      (init16 dl s) := by
  have hmem : (init16 dl s).mem = writeLE 1 s.mem 0x201C dl.toNat := by
    unfold init16
    rw [Cpu16.setByte_low (by decide)]
    exact write8_eq_writeLE _ _ _
  refine ⟨rfl, rfl, h, rfl, ?_, ?_⟩
  · intro x hx
    rw [hmem, writeLE_of_not_mem (by omega)]
  · rw [hmem, readRealMode_eq, readRealMode_eq]
    simp (disch := decide) only [readLE_writeLE_disjoint, ofNat_readLE_writeLE 8 1 rfl]

/-- What the loader needs later. -/
def Used (x : ℕ) : Prop := (0x1000 ≤ x ∧ x < 0x1A018) ∨ (0x7FFE0 ≤ x ∧ x < 0x7FFF0)

section drive

variable {a20 : Bool} {r : EddReturn} {m m' : Mem}

theorem table_congr (hout : TableOutside a20 r) (hm : ∀ x ∉ rmDataBytes, m' x = m x) :
    tableIo a20 r m' = tableIo a20 r m ∧ tableCtl a20 r m' = tableCtl a20 r m ∧
      tableSlv a20 r m' = tableSlv a20 r m := by
  have hbyte : ∀ i < 5, load8 a20 (int13 m' r) r.seg (r.off + BitVec.ofNat 16 i) =
      load8 a20 (int13 m r) r.seg (r.off + BitVec.ofNat 16 i) := by
    intro i hi
    unfold load8 int13
    rw [hm _ (hout i hi)]
  have h0 := hbyte 0 (by decide)
  rw [BitVec.add_zero] at h0
  have h3 : r.off + 2 + 1 = r.off + BitVec.ofNat 16 3 := BitVec.add_assoc r.off 2 1
  refine ⟨load16_congr h0 (hbyte 1 (by decide)), load16_congr (hbyte 2 (by decide)) ?_, ?_⟩
  · rw [h3]
    exact hbyte 3 (by decide)
  · exact congrArg (· &&& EDD_SLV_BM) (hbyte 4 (by decide))

theorem readRealMode_idDrive (hout : TableOutside a20 r)
    (hfar : r.seg = 0 ∨ ¬ Used (slvAddr a20 r)) (h : idDrive a20 r m = some m') :
    readRealMode m' = { readRealMode m with
      boot_disk_io := tableIo a20 r m
      boot_disk_ctl := tableCtl a20 r m
      is_boot_disk_slv :=
        if r.seg = 0 then tableSlv a20 r m else (readRealMode m).is_boot_disk_slv } := by
  have hslv : slvAddr a20 r < 0x2008 ∨ 0x201D ≤ slvAddr a20 r := by
    rcases hfar with hseg | hfar
    · have haddr : slvAddr a20 r = 0x201D := linear_eq_offset.mpr hseg
      omega
    · unfold Used at hfar
      omega
  have hlow : ∀ {n a}, 0x2008 ≤ a → a + n ≤ 0x201D → readLE n m' a = readLE n m a := by
    intro n a hlo hhi
    apply readLE_congr
    intro x hx hx'
    rw [idDrive_apply hout h (by omega), if_neg (by omega), int13_of_not_mem]
    intro hmem
    exact absurd hmem.1 (by omega)
  have hio : BitVec.ofNat 16 (readLE 2 m' 0x201E) = tableIo a20 r m := by
    have hload : (load16 a20 m' 0 (rmdLabel .boot_disk_io)).toNat = readLE 2 m' 0x201E :=
      load16_low (by decide) (by decide)
    rw [← hload, BitVec.ofNat_toNat, BitVec.setWidth_eq, idDrive_io hout h]
  have hctl : BitVec.ofNat 16 (readLE 2 m' 0x2020) = tableCtl a20 r m := by
    have hload : (load16 a20 m' 0 (rmdLabel .boot_disk_ctl)).toNat = readLE 2 m' 0x2020 :=
      load16_low (by decide) (by decide)
    rw [← hload, BitVec.ofNat_toNat, BitVec.setWidth_eq, idDrive_ctl hout h]
  have hbyte : ∀ m : Mem, BitVec.ofNat 8 (readLE 1 m 0x201D) = m 0x201D := by
    intro m
    unfold readLE readLE
    rw [Nat.mul_zero, Nat.add_zero, BitVec.ofNat_toNat, BitVec.setWidth_eq]
  have hslave : m' 0x201D = if r.seg = 0 then tableSlv a20 r m else m 0x201D := by
    rw [← idDrive_slv hout h]
    unfold load8
    rw [linear_zero]
    rfl
  rw [readRealMode_eq, readRealMode_eq]
  simp (disch := omega) only [hlow, hio, hctl, hbyte, hslave]

theorem not_edd_buf {b x : ℕ} (h : ¬ Collected b x) : x ∉ Set.Ico 0x2028 0x2046 ∧ x ≠ 0x201C := by
  unfold Collected at h
  refine ⟨?_, by omega⟩
  rintro ⟨hlo, hhi⟩
  omega

/-- **`id_drive`** leaves the ports and the slave bit of the drive. -/
theorem id_drive_spec {v : RealModeData} (hout : TableOutside a20 r)
    (hfar : r.seg = 0 ∨ ¬ Used (slvAddr a20 r)) :
    Stage.Spec (At (fun x => x = 0x201C) m a20 0 v) (id_drive r)
      (At (Collected (slvAddr a20 r)) m a20 0 { v with
        boot_disk_io := tableIo a20 r m
        boot_disk_ctl := tableCtl a20 r m
        is_boot_disk_slv := if r.seg = 0 then tableSlv a20 r m else v.is_boot_disk_slv })
      (GivesUp (slvAddr a20 r) m) where
  ok s t hs ht := by
    obtain rfl := hs.a20
    unfold id_drive at ht
    cases h : idDrive s.a20 r s.mem with
    | none => simp [h] at ht
    | some mem =>
        simp only [h, Option.some.injEq, Except.ok.injEq] at ht
        subst ht
        have hsame : ∀ x ∉ rmDataBytes, s.mem x = m x := fun x hx =>
          hs.frame x fun hx' => hx (hx' ▸ ⟨by decide, by decide⟩)
        have htable := table_congr hout hsame
        refine ⟨rfl, hs.es, hs.stack, rfl, ?_, ?_⟩
        · intro x hx
          obtain ⟨hbuf, hdisk⟩ := not_edd_buf hx
          unfold Collected at hx
          show mem x = m x
          rw [idDrive_apply hout h (by omega), if_neg (by omega), int13_of_not_mem hbuf,
            hs.frame x hdisk]
        · show readRealMode mem = _
          rw [readRealMode_idDrive hout hfar h, hs.data, htable.1, htable.2.1, htable.2.2]
  error s e hs he := by
    obtain rfl := hs.a20
    unfold id_drive at he
    cases h : idDrive s.a20 r s.mem with
    | some mem => simp [h] at he
    | none =>
        simp only [h, Option.some.injEq, Except.error.injEq] at he
        subst he
        refine ⟨hs.ds, ?_⟩
        intro x hx _
        obtain ⟨hbuf, hdisk⟩ := not_edd_buf fun h => hx (touched_of_collected h)
        show int13 (store16 s.a20 s.mem 0 edd_buf EDD_BUF_SIZE) r x = m x
        rw [int13_store16, int13_of_not_mem hbuf, hs.frame x hdisk]

/-- The BIOS describes the drive in a structure of the right size. -/
def described (r : EddReturn) : Bool :=
  !r.carry && r.ah == 0x00 && r.buffer 1 ++ r.buffer 0 == EDD_BUF_SIZE

theorem id_drive_decides (P : Cpu16 → Prop) : Stage.Decides P (id_drive r)
    (if described r = true then none else some .ID_DRIVE_FAIL) := by
  intro s _
  have hsize : load16 s.a20 (int13 (store16 s.a20 s.mem 0 edd_buf EDD_BUF_SIZE) r) 0 edd_buf =
      r.buffer 1 ++ r.buffer 0 := by
    unfold load16 load8
    rw [linear_zero, linear_zero]
    rfl
  have hsome : (idDrive s.a20 r s.mem).isSome = described r := by
    unfold idDrive described
    simp only [hsize]
    split_ifs with hc ha hb
    · simp [hc]
    · rw [beq_eq_false_iff_ne.mpr ha]
      simp
    · simp [hb]
    · simp [hc, not_not.mp ha, not_not.mp hb]
  rw [← hsome]
  unfold id_drive
  cases idDrive s.a20 r s.mem with
  | none => exact ⟨_, rfl, rfl⟩
  | some mem => exact ⟨_, rfl, rfl⟩

end drive

/-! ### The processor and the font -/

section font

variable {b : ℕ} {m : Mem} {a20 : Bool} {es : BitVec 16} {v : RealModeData}

theorem check_cpuid_spec (cpu : Processor) : Stage.Spec (At (Collected b) m a20 es v)
    (check_cpuid cpu) (At (Collected b) m a20 es v) (GivesUp b m) where
  ok s t hs ht := by
    obtain ⟨mem, hmem, heq⟩ := check_cpuid_eq hs.stack cpu
    rw [heq] at ht
    split_ifs at ht
    · obtain rfl := Except.ok.inj (Option.some.inj ht)
      exact hs.below (fun _ => collected_stack) hmem
    · cases ht
  error s e hs he := by
    obtain ⟨mem, hmem, heq⟩ := check_cpuid_eq hs.stack cpu
    rw [heq] at he
    split_ifs at he
    · cases he
    · obtain rfl := Except.error.inj (Option.some.inj he)
      exact (hs.below (fun _ => collected_stack) hmem).givesUp (fun _ => touched_of_collected) _

/-- The bit for `cpuid` in the flags can be inverted. -/
def Processor.flips (cpu : Processor) : Bool :=
  (cpu.popfd (cpu.flags ^^^ ID_BM) ^^^ cpu.flags) &&& ID_BM != 0

theorem check_cpuid_decides {P : Cpu16 → Prop} (hP : ∀ s, P s → s.stack = bootStack)
    (cpu : Processor) : Stage.Decides P (check_cpuid cpu)
      (if cpu.flips = true then none else some .NO_CPUID) := by
  intro s hs
  obtain ⟨mem, -, heq⟩ := check_cpuid_eq (hP s hs) cpu
  have hflips : cpu.flips = true ↔
      (cpu.popfd (cpu.flags ^^^ ID_BM) ^^^ cpu.flags) &&& ID_BM ≠ 0 := bne_iff_ne
  rw [heq]
  by_cases h : (cpu.popfd (cpu.flags ^^^ ID_BM) ^^^ cpu.flags) &&& ID_BM ≠ 0
  · rw [if_pos h, if_pos (hflips.mpr h)]
    exact ⟨_, rfl, rfl⟩
  · rw [if_neg h, if_neg fun hf => h (hflips.mp hf)]
    exact ⟨_, rfl, rfl⟩

theorem test_spec (c : Cpu16 → Bool) (e : ErrMsg) : Stage.Spec (At (Collected b) m a20 es v)
    (.test c e) (At (Collected b) m a20 es v) (GivesUp b m) :=
  Stage.Spec.test fun _ hs => hs.givesUp (fun _ => touched_of_collected) _

/-- Memory with the font of the BIOS at its place. -/
def withFont (src : ℕ) (m : Mem) : Mem := fun x =>
  if 0x1000 ≤ x ∧ x < 0x1000 + 4096 then m (src + (x - 0x1000)) else m x

theorem get_font_spec {font_es font_bp : BitVec 16} {src : ℕ}
    (hsrc : src = font_es.toNat * 16 + font_bp.toNat) (hbp : font_bp.toNat + 4096 ≤ 2 ^ 16)
    (hlow : src + 4096 ≤ 2 ^ 20) (hdisj : src + 4096 ≤ 0x1000 ∨ 0x2000 ≤ src)
    (hfont : ∀ i < 4096, ¬ Collected b (src + i)) :
    Stage.Spec (At (Collected b) m a20 0 v) (.work (get_font font_es font_bp))
      (At (Collected b) (withFont src m) a20 0 v) (GivesUp b m) := by
  refine Stage.Spec.work fun s hs => ?_
  obtain ⟨mem, hmem, heq⟩ := get_font_eq hs.stack hs.es hsrc hbp hlow hdisj
  have hbefore := hs.below (fun _ => collected_stack) hmem
  rw [heq]
  refine ⟨hs.ds, hs.es, hs.stack, hs.a20, ?_, ?_⟩
  · intro x hx
    unfold withFont
    simp only
    split_ifs with hin
    · exact hbefore.frame _ (hfont _ (by omega))
    · exact hbefore.frame x hx
  · rw [← hbefore.data]
    exact readRealMode_congr fun x hx _ => if_neg (by omega)

theorem svga_init_spec {vbeInfo : List (BitVec 8)} :
    Stage.Spec (At (Collected b) m a20 0 v) (.work (svga_init vbeInfo))
      (fun s => At (Collected b) (writeBytes m 0xA000 vbeInfo) a20 MEMMAP_SEG
        { v with memmap_seg := MEMMAP_SEG } s ∧ s.di = 0) (GivesUp b m) := by
  refine Stage.Spec.work fun s hs => ⟨?_, rfl⟩
  have hlin : linear s.a20 MEMMAP_SEG 0 = 0xA000 := linear_low (by decide)
  have hmem : (svga_init vbeInfo s).mem =
      writeBytes (writeLE 2 s.mem 0x2014 MEMMAP_SEG.toNat) 0xA000 vbeInfo := by
    unfold svga_init
    rw [hs.ds, Cpu16.setWord_low (by decide) (by decide)]
    simp only [hlin]
    rfl
  refine ⟨hs.ds, rfl, hs.stack, hs.a20, ?_, ?_⟩
  · intro x hx
    have hx' := hx
    unfold Collected at hx'
    rw [hmem]
    unfold writeBytes
    split_ifs with hin
    · rfl
    · rw [writeLE_of_not_mem (by omega), hs.frame x hx]
  · have hcongr : readRealMode (svga_init vbeInfo s).mem =
        readRealMode (writeLE 2 s.mem 0x2014 MEMMAP_SEG.toNat) := by
      rw [hmem]
      exact readRealMode_congr fun x _ hx => writeBytes_of_not_mem (Or.inl (by omega))
    rw [hcongr, ← hs.data, readRealMode_eq, readRealMode_eq]
    simp (disch := decide) only [readLE_writeLE_disjoint, ofNat_readLE_writeLE 16 2 rfl]

end font

/-! ### The memory map -/

section map

theorem int15_below {s : E820} {r : Response} (hr : r.bytes.length ≤ 24) {x : ℕ}
    (hx : x < 0xA000 ∨ 0x1A018 ≤ x) : int15 s r x = s.mem x := by
  have hdi := s.di.isLt
  have hnext := (s.di + 20).isLt
  have hseg : MEMMAP_SEG.toNat * 16 = 0xA000 := rfl
  unfold int15 esAddr
  rw [hseg, writeBytes_of_not_mem (by omega), writeLE_of_not_mem (by omega)]

theorem examine_mem (s : E820) (r : Response) : (examine s r).mem = int15 s r := by
  unfold examine
  simp only
  split_ifs <;> rfl

theorem e820Calls_below {answers : List Response} {s : E820}
    (hbytes : ∀ r ∈ answers, r.bytes.length ≤ 24) {x : ℕ} (hx : x < 0xA000 ∨ 0x1A018 ≤ x) :
    (e820Calls answers s).mem x = s.mem x := by
  induction answers generalizing s with
  | nil => rfl
  | cons r rs ih =>
      have hr := int15_below (s := s) (hbytes r List.mem_cons_self) hx
      have hrest : ∀ r ∈ rs, r.bytes.length ≤ 24 := fun q hq =>
        hbytes q (List.mem_cons_of_mem r hq)
      unfold e820Calls
      split_ifs
      · exact hr
      · exact hr
      · rw [ih hrest, examine_mem, hr]
      · rw [examine_mem, hr]

/-- The loop ends in the state behind its calls. -/
theorem e820Loop_calls {answers : List Response} {s e : E820}
    (h : e820Loop answers s = some (.done e)) : e = e820Calls answers s := by
  induction answers generalizing s with
  | nil => cases h
  | cons r rs ih =>
      unfold e820Loop first at h
      unfold e820Calls
      split_ifs at h with hc hsig hb
      · obtain rfl := E820Result.done.inj (Option.some.inj h)
        rw [if_pos hc]
      · cases h
      · rw [if_neg hc, if_neg hsig, if_pos hb]
        exact ih h
      · obtain rfl := E820Result.done.inj (Option.some.inj h)
        rw [if_neg hc, if_neg hsig, if_neg hb]

theorem e820_calls {answers : List Response} {m : Mem} {e : E820}
    (h : e820 m answers = some (.done e)) : e = e820Calls answers (start m) := by
  cases answers with
  | nil => cases h
  | cons r rs =>
      simp only [e820] at h
      split_ifs at h with hc
      · cases h
      · apply e820Loop_calls
        rw [e820Loop, if_neg hc]
        exact h

/-- The BIOS is not asked again behind this answer. -/
def final (r : Response) : Bool := r.carry || r.eax != SMAP || r.ebx == 0

/-- The answers make up a map. -/
def mapped (answers : List Response) : Bool :=
  !answers.head?.any Response.carry &&
    (answers.find? final).any fun r => r.carry || r.eax == SMAP

theorem e820Loop_ends {answers : List Response} {s : E820} {r : Response}
    (h : answers.find? final = some r) :
    ∃ res, e820Loop answers s = some res ∧
      ((r.carry || r.eax == SMAP) = true ↔ ∃ e, res = .done e) := by
  induction answers generalizing s with
  | nil => cases h
  | cons q qs ih =>
      unfold e820Loop first
      rw [List.find?_cons] at h
      by_cases hc : q.carry = true
      · have hq : final q = true := by simp [final, hc]
        rw [hq] at h
        obtain rfl := Option.some.inj h
        exact ⟨_, if_pos hc, by simp [hc]⟩
      · by_cases hsig : q.eax ≠ SMAP
        · have hq : final q = true := by simp [final, hsig]
          rw [hq] at h
          obtain rfl := Option.some.inj h
          rw [if_neg hc, if_pos hsig]
          exact ⟨_, rfl, by simp [hc, hsig]⟩
        · by_cases hb : q.ebx ≠ 0
          · have hq : final q = false := by
              unfold final
              rw [beq_eq_false_iff_ne.mpr hb]
              simp [hc, not_not.mp hsig]
            rw [hq] at h
            rw [if_neg hc, if_neg hsig, if_pos hb]
            exact ih h
          · have hq : final q = true := by simp [final, not_not.mp hb]
            rw [hq] at h
            obtain rfl := Option.some.inj h
            rw [if_neg hc, if_neg hsig, if_neg hb]
            exact ⟨_, rfl, by simp [not_not.mp hsig]⟩

theorem e820_ends {answers : List Response} (h : ∃ r ∈ answers, final r = true) (m : Mem) :
    ∃ res, e820 m answers = some res ∧ (mapped answers = true ↔ ∃ e, res = .done e) := by
  obtain ⟨q, hq⟩ := Option.isSome_iff_exists.mp (List.find?_isSome.mpr h)
  cases answers with
  | nil => cases hq
  | cons r rs =>
      unfold mapped
      by_cases hc : r.carry = true
      · exact ⟨.fail, if_pos hc, by simp [hc]⟩
      · obtain ⟨res, hres, hiff⟩ := e820Loop_ends (s := start m) hq
        unfold e820Loop at hres
        rw [if_neg hc] at hres
        refine ⟨res, ?_, ?_⟩
        · exact (if_neg hc).trans hres
        · rw [hq, ← hiff]
          simp [hc]

end map

section calls

variable {b : ℕ} {m : Mem} {a20 : Bool} {es : BitVec 16}

theorem map_memory_eq {s : Cpu16} (h : s.stack = bootStack) (ret : BitVec 16)
    (answers : List Response) {m₁ : Mem} (hm₁ : m₁ = writeLE 2 s.mem 0x7FFEE ret.toNat) :
    map_memory ret answers s = match e820 m₁ answers with
      | none => none
      | some .fail => some (.error (.E820_FAIL, { s with
          es := MEMMAP_SEG
          di := (e820Calls answers (start m₁)).di
          mem := (e820Calls answers (start m₁)).mem }))
      | some (.done e) => some (.ok (Cpu16.setWord { s with
          es := MEMMAP_SEG
          di := e.di
          mem := e.mem } s.ds (rmdLabel .memmap_size) e.bp)) := by
  obtain ⟨ds, es, fs, si, di, stack, a20, mem⟩ := s
  obtain rfl : stack = bootStack := h
  subst hm₁
  unfold map_memory bootStack
  simp (disch := decide) only [Cpu16.push_topAt, Nat.reduceSub]
  cases e820 (writeLE 2 mem 0x7FFEE ret.toNat) answers with
  | none => rfl
  | some r =>
      cases r with
      | fail => simp (disch := decide) only [Cpu16.pop_topAt, Nat.reduceAdd]
      | done e => simp (disch := decide) only [Cpu16.pop_topAt, Nat.reduceAdd]

theorem map_memory_decides {P : Cpu16 → Prop} (hP : ∀ s, P s → s.stack = bootStack)
    {answers : List Response} (hfinal : ∃ r ∈ answers, final r = true) (ret : BitVec 16) :
    Stage.Decides P (map_memory ret answers)
      (if mapped answers = true then none else some .E820_FAIL) := by
  intro s hs
  rw [map_memory_eq (hP s hs) ret answers rfl]
  obtain ⟨res, hres, hiff⟩ := e820_ends hfinal (writeLE 2 s.mem 0x7FFEE ret.toNat)
  rw [hres]
  cases res with
  | fail =>
      rw [if_neg fun h => by obtain ⟨e, he⟩ := hiff.mp h; cases he]
      exact ⟨_, rfl, rfl⟩
  | done e =>
      rw [if_pos (hiff.mpr ⟨e, rfl⟩)]
      exact ⟨_, rfl, rfl⟩

/-- What is known about the saved map behind `save_memmap`. -/
def MapSaved (b : ℕ) (m : Mem) (answers : List Response) (v : RealModeData) (mem : Mem) : Prop :=
  ∃ m' e, (∀ x, ¬ Touched b x → m' x = m x) ∧ e820 m' answers = some (.done e) ∧
    v.memmap_size = e.bp ∧ ∀ x, 0xA000 ≤ x → x < 0x1A018 → mem x = e.mem x

theorem map_memory_spec {answers : List Response} (hbytes : ∀ r ∈ answers, r.bytes.length ≤ 24)
    (ret : BitVec 16) {C : RealModeData → Prop} :
    Stage.Spec (fun s => ∃ v, At (Touched b) m a20 MEMMAP_SEG v s ∧ C v) (map_memory ret answers)
      (fun s => ∃ v n, At (Touched b) m a20 MEMMAP_SEG { v with memmap_size := n } s ∧ C v ∧
        MapSaved b m answers { v with memmap_size := n } s.mem) (GivesUp b m) where
  ok s t hs ht := by
    obtain ⟨v, hs, hv⟩ := hs
    obtain ⟨m₁, hm₁⟩ : ∃ m₁, m₁ = writeLE 2 s.mem 0x7FFEE ret.toNat := ⟨_, rfl⟩
    have hpushed : At (Touched b) m a20 MEMMAP_SEG v { s with mem := m₁ } := hm₁ ▸ hs.pushed ret
    rw [map_memory_eq hs.stack ret answers hm₁] at ht
    cases he : e820 m₁ answers with
    | none => simp [he] at ht
    | some r =>
        cases r with
        | fail => simp [he] at ht
        | done e =>
            simp only [he, Option.some.injEq, Except.ok.injEq] at ht
            have hmap : At (Touched b) m a20 MEMMAP_SEG v { s with mem := e.mem } :=
              hpushed.scratch fun x _ hx => by
                rw [e820_calls he, e820Calls_below hbytes (by omega)]
                rfl
            rw [hs.ds, Cpu16.setWord_low (by decide) (by decide)] at ht
            subst ht
            have hsize := hmap.memmap_size e.bp
            refine ⟨v, e.bp, ⟨rfl, rfl, hs.stack, hs.a20, hsize.frame, hsize.data⟩, hv, m₁, e,
              hpushed.frame, he, rfl, ?_⟩
            intro x hx _
            show writeLE 2 e.mem 0x2016 e.bp.toNat x = e.mem x
            exact writeLE_of_not_mem (by omega)
  error s e hs he := by
    obtain ⟨v, hs, hv⟩ := hs
    obtain ⟨m₁, hm₁⟩ : ∃ m₁, m₁ = writeLE 2 s.mem 0x7FFEE ret.toNat := ⟨_, rfl⟩
    have hpushed : At (Touched b) m a20 MEMMAP_SEG v { s with mem := m₁ } := hm₁ ▸ hs.pushed ret
    rw [map_memory_eq hs.stack ret answers hm₁] at he
    cases hr : e820 m₁ answers with
    | none => simp [hr] at he
    | some r =>
        cases r with
        | done e => simp [hr] at he
        | fail =>
            simp only [hr, Option.some.injEq, Except.error.injEq] at he
            subst he
            have hmap : At (Touched b) m a20 MEMMAP_SEG v
                { s with mem := (e820Calls answers (start m₁)).mem } :=
              hpushed.scratch fun x _ hx => e820Calls_below hbytes (by omega)
            exact ⟨hs.ds, (hmap.givesUp (fun _ => id) .E820_FAIL).2⟩

theorem activate_a20_eq {v : RealModeData} {s : Cpu16} (hs : At (Touched b) m a20 es v s)
    (chipset : Chipset) (flags ret : BitVec 16) :
    ∃ mem, (∀ x, (x < 0x7FFE0 ∨ 0x7FFF0 ≤ x) → mem x = s.mem x) ∧
      At (Touched b) m (chipset.gate (chipset.port92 ||| 2)) es v { s with
        a20 := chipset.gate (chipset.port92 ||| 2)
        mem } ∧
      activate_a20 chipset flags ret s =
        if chipset.gate (chipset.port92 ||| 2) then
          some (.ok { s with
            a20 := chipset.gate (chipset.port92 ||| 2)
            mem })
        else some (.error (.A20_FAIL, { s with
          a20 := chipset.gate (chipset.port92 ||| 2)
          mem })) := by
  obtain ⟨mem, hmem, heq⟩ := check_a20_eq (s := { s with
    a20 := chipset.gate (chipset.port92 ||| 2) }) hs.stack flags ret
  have hbelow := hs.below (fun _ hlo hhi => touched_of_collected (collected_stack hlo hhi)) hmem
  refine ⟨mem, hmem, ⟨hs.ds, hs.es, hs.stack, rfl, hbelow.frame, hbelow.data⟩, ?_⟩
  unfold activate_a20
  rw [heq]
  cases chipset.gate (chipset.port92 ||| 2) <;> rfl

theorem activate_a20_spec (chipset : Chipset) (flags ret : BitVec 16)
    {K : RealModeData → Mem → Prop} (hK : ∀ v m m', (∀ x, (x < 0x7FFE0 ∨ 0x7FFF0 ≤ x) →
      m' x = m x) → K v m → K v m') :
    Stage.Spec (fun s => ∃ v, At (Touched b) m a20 es v s ∧ K v s.mem)
      (activate_a20 chipset flags ret)
      (fun s => ∃ v, At (Touched b) m true es v s ∧ K v s.mem) (GivesUp b m) where
  ok s t hs ht := by
    obtain ⟨v, hs, hv⟩ := hs
    obtain ⟨mem, hmem, hat, heq⟩ := activate_a20_eq hs chipset flags ret
    rw [heq] at ht
    split_ifs at ht with hgate
    · obtain rfl := Except.ok.inj (Option.some.inj ht)
      exact ⟨v, ⟨hat.ds, hat.es, hat.stack, hgate, hat.frame, hat.data⟩, hK v _ _ hmem hv⟩
    · cases ht
  error s e hs he := by
    obtain ⟨v, hs, -⟩ := hs
    obtain ⟨mem, -, hat, heq⟩ := activate_a20_eq hs chipset flags ret
    rw [heq] at he
    split_ifs at he
    · cases he
    · obtain rfl := Except.error.inj (Option.some.inj he)
      exact hat.givesUp (fun _ => id) _

theorem activate_a20_decides {P : Cpu16 → Prop} (hP : ∀ s, P s → s.stack = bootStack)
    (chipset : Chipset) (flags ret : BitVec 16) :
    Stage.Decides P (activate_a20 chipset flags ret)
      (if chipset.gate (chipset.port92 ||| 2) = true then none else some .A20_FAIL) := by
  intro s hs
  obtain ⟨mem, -, heq⟩ := check_a20_eq (s := { s with
    a20 := chipset.gate (chipset.port92 ||| 2) }) (hP s hs) flags ret
  unfold activate_a20
  rw [heq]
  cases chipset.gate (chipset.port92 ||| 2) with
  | false => exact ⟨_, rfl, rfl⟩
  | true => exact ⟨_, rfl, rfl⟩

end calls

end Ziemniak.Stage2.Stub
