import Ziemniak.Stage2.Idt

/-! # The kernel's descriptor tables

`interrupts_init` fills the interrupt table in two loops, and `init_gdt` of `init.asm` patches the
address of the task state segment into a descriptor that is assembled with the rest of it.  Both
are read back as the processor does (`interruptsInit_vectors`, `initGdt_segment`). -/

namespace Ziemniak.Kernel

open BareMetal
open Stage2 (plainGate)

/-! ### The interrupt table -/

def PRESENT : BitVec 8 := 0x80
def GATE_INT : BitVec 8 := 0x0E
def GATE_TRAP : BitVec 8 := 0x0F

inductive IdtMember
  | isr_l | cs | ist | attr | isr_m | isr_h | rsrvd
deriving DecidableEq, Repr

/-- `struct idt_entry` of the kernel. -/
def idtStruct : Struct IdtMember :=
  [(.isr_l, .uint16), (.cs, .uint16), (.ist, .uint8), (.attr, .uint8), (.isr_m, .uint16),
    (.isr_h, .uint32), (.rsrvd, .uint32)]

def idtPlaces : List (Placed IdtMember) := idtStruct.layout x86_64 true

/-- The members lie at the same places without `__packed`, and an entry has 16 bytes. -/
theorem idtStruct_places (packed : Bool) : idtStruct.layout x86_64 packed = idtPlaces ∧
    idtStruct.sizeof x86_64 packed = 16 := by
  cases packed <;> exact ⟨rfl, rfl⟩

theorem idtPlaces_noAlias : NoAlias idtPlaces := Struct.layout_noAlias x86_64_align true idtStruct

theorem idtPlaces_distinct : DistinctMembers idtPlaces := by
  unfold DistinctMembers
  decide

/-- The assignments of `gen_entry`, in its order. -/
def gateValues (isr : BitVec 64) (attr : BitVec 8) : List (IdtMember × ℕ) :=
  let addr := isr
  [(.isr_l, (addr &&& 0xFFFF).toNat),
    (.cs, 0x08),
    (.ist, 0x00),
    (.attr, attr.toNat),
    (.isr_m, ((addr >>> 16) &&& 0xFFFF).toNat),
    (.isr_h, ((addr >>> 32) &&& 0xFFFFFFFF).toNat),
    (.rsrvd, 0x00)]

/-- `gen_entry` -/
def genGate (m : Mem) (entry : ℕ) (isr : BitVec 64) (attr : BitVec 8) : Mem :=
  assign idtPlaces entry m (gateValues isr attr)

section genGate

variable (m : Mem) (entry : ℕ) (isr : BitVec 64) (attr : BitVec 8)

theorem genGate_member {p : Placed IdtMember} (hp : p ∈ idtPlaces) {v : ℕ}
    (hv : (p.member, v) ∈ gateValues isr attr) :
    readLE p.size (genGate m entry isr attr) (entry + p.offset) = v % 256 ^ p.size := by
  have hnames : ((gateValues isr attr).map Prod.fst).Nodup := by
    show [IdtMember.isr_l, .cs, .ist, .attr, .isr_m, .isr_h, .rsrvd].Nodup
    decide
  exact readLE_assign idtPlaces_noAlias idtPlaces_distinct hnames hp hv

/-- The three pieces make up the address of the handler. -/
theorem genGate_offset : offset64 (genGate m entry isr attr) entry = isr := by
  have hlow := genGate_member m entry isr attr (p := ⟨.isr_l, 0, 2⟩) (by decide)
    (v := (isr &&& 0xFFFF).toNat) (by simp [gateValues])
  have hmid := genGate_member m entry isr attr (p := ⟨.isr_m, 6, 2⟩) (by decide)
    (v := ((isr >>> 16) &&& 0xFFFF).toNat) (by simp [gateValues])
  have hhigh := genGate_member m entry isr attr (p := ⟨.isr_h, 8, 4⟩) (by decide)
    (v := ((isr >>> 32) &&& 0xFFFFFFFF).toNat) (by simp [gateValues])
  have hlow16 : (isr &&& 0xFFFF).toNat = isr.toNat % 2 ^ 16 :=
    toNat_and_lowMask isr 16 (by norm_num)
  have hmid16 : ((isr >>> 16) &&& 0xFFFF).toNat = isr.toNat / 2 ^ 16 % 2 ^ 16 :=
    toNat_shift_lowMask isr 16 16 (by norm_num)
  have hhigh32 : ((isr >>> 32) &&& 0xFFFFFFFF).toNat = isr.toNat / 2 ^ 32 % 2 ^ 32 :=
    toNat_shift_lowMask isr 32 32 (by norm_num)
  rw [hlow16] at hlow
  rw [hmid16] at hmid
  rw [hhigh32] at hhigh
  exact offset64_of_pieces (hlow.trans (Nat.mod_mod _ _)) (hmid.trans (Nat.mod_mod _ _))
    (hhigh.trans (Nat.mod_mod _ _))

theorem genGate_gate {kind : GateKind} (hkind : gateKind attr.toNat = some kind) :
    gate64 (genGate m entry isr attr) entry =
      some { target := isr, selector := 0x08, ist := 0, dpl := attr.toNat / 32 % 4, kind } := by
  have hcs : readLE 2 (genGate m entry isr attr) (entry + 2) = 0x08 :=
    genGate_member m entry isr attr (p := ⟨.cs, 2, 2⟩) (by decide)
      (v := 0x08) (by simp [gateValues])
  have hist : readLE 1 (genGate m entry isr attr) (entry + 4) = 0x00 :=
    genGate_member m entry isr attr (p := ⟨.ist, 4, 1⟩) (by decide)
      (v := 0x00) (by simp [gateValues])
  have hattr := genGate_member m entry isr attr (p := ⟨.attr, 5, 1⟩) (by decide)
    (v := attr.toNat) (by simp [gateValues])
  have hattr8 : readLE 1 (genGate m entry isr attr) (entry + 5) = attr.toNat :=
    hattr.trans (Nat.mod_eq_of_lt attr.isLt)
  unfold gate64 gateAt
  rw [genGate_offset, hcs, hist, hattr8, hkind]
  rfl

theorem genGate_frame {x : ℕ} (hx : x < entry ∨ entry + 16 ≤ x) :
    genGate m entry isr attr x = m x :=
  assign_of_not_mem (by decide) _ hx

end genGate

/-- What `interrupts_init` works on; `enabled` is the interrupt flag. -/
structure IntState (δ : Type) where
  mem : Mem
  idtr : TableReg
  enabled : Bool
  dev : δ

section interruptsInit

variable (isr_tab : ℕ → BitVec 64) (idt : ℕ)

/-- `gen_entry(&idt[i], isr_tab[i], attr)` -/
def genRound (attr : BitVec 8) (i : BitVec 64) (m : Mem) : Mem :=
  genGate m (idt + 16 * i.toNat) (isr_tab i.toNat) attr

/-- The two loops. -/
def fillIdt (m : Mem) : Mem :=
  let m := rounds (genRound isr_tab idt (PRESENT ||| GATE_TRAP)) (List.range 32) m
  rounds (genRound isr_tab idt (PRESENT ||| GATE_INT)) (List.range' 32 16) m

variable {δ : Type} (dev : Device δ)

def interruptsInit (s : IntState δ) : BitVec 32 × IntState δ :=
  let s := { s with mem := fillIdt isr_tab idt s.mem }
  let s := { s with idtr := { base := idt, limit := 48 * 16 - 1 } }
  let d := dev.outb 0x20 0x11 s.dev
  let d := dev.outb 0xA0 0x11 d
  let d := dev.outb 0x21 0x20 d
  let d := dev.outb 0xA1 40 d
  let d := dev.outb 0x21 0x04 d
  let d := dev.outb 0xA1 0x02 d
  let d := dev.outb 0x21 0x01 d
  let d := dev.outb 0xA1 0x01 d
  let d := dev.outb 0x21 0x0 d
  let d := dev.outb 0xA1 0x0 d
  (0, { s with dev := d, enabled := true })

/-- A loop as stores to entries. -/
def storeRound (attr : BitVec 8) (m : Mem) (j : ℕ) : Mem :=
  genRound isr_tab idt attr (BitVec.ofNat 64 j) m

theorem rounds_genRound (attr : BitVec 8) (l : List ℕ) (m : Mem) :
    rounds (genRound isr_tab idt attr) l m = l.foldl (storeRound isr_tab idt attr) m := rfl

theorem storeRound_ownEntry (attr : BitVec 8) : OwnEntry (storeRound isr_tab idt attr)
    (fun j => (BitVec.ofNat 64 j).toNat) idt 16 :=
  OwnEntry.of_frame (fun m _ _ hx => genGate_frame m _ _ attr hx)

theorem rounds_genRound_own {attr : BitVec 8} {kind : GateKind}
    (hkind : gateKind attr.toNat = some kind) {l : List ℕ}
    (hl : (l.map (fun j => (BitVec.ofNat 64 j).toNat)).Nodup) {v : ℕ} (hv : v ∈ l)
    (hlt : v < 2 ^ 64) (m : Mem) :
    gate64 (rounds (genRound isr_tab idt attr) l m) (idt + 16 * v) =
      some { target := isr_tab v, selector := 0x08, ist := 0, dpl := attr.toNat / 32 % 4,
             kind } := by
  have hid : (BitVec.ofNat 64 v).toNat = v := Nat.mod_eq_of_lt hlt
  obtain ⟨m₀, hagree⟩ := foldl_own (storeRound_ownEntry isr_tab idt attr) hl hv m
  have hstore : storeRound isr_tab idt attr m₀ v =
      genGate m₀ (idt + 16 * v) (isr_tab v) attr := by
    unfold storeRound genRound
    rw [hid]
  simp only [hstore, hid] at hagree
  rw [rounds_genRound, gate64_congr hagree]
  exact genGate_gate m₀ (idt + 16 * v) (isr_tab v) attr hkind

theorem fillIdt_gate (m : Mem) {v : ℕ} (hv : v < 48) :
    gate64 (fillIdt isr_tab idt m) (idt + 16 * v) = some (plainGate (isr_tab v) v) := by
  have hirqs : (List.range' 32 16).map (fun j => (BitVec.ofNat 64 j).toNat) =
      List.range' 32 16 := rfl
  have hmem : v ∈ List.range' 32 16 ↔ 32 ≤ v := by
    rw [List.mem_range'_1]
    omega
  unfold fillIdt plainGate
  by_cases htrap : v < 32
  · have hnot : v ∉ (List.range' 32 16).map (fun j => (BitVec.ofNat 64 j).toNat) := by
      rw [hirqs, hmem]
      omega
    have hother := foldl_other (storeRound_ownEntry isr_tab idt (PRESENT ||| GATE_INT)) hnot
      (rounds (genRound isr_tab idt (PRESENT ||| GATE_TRAP)) (List.range 32) m)
    have hids : (List.range 32).map (fun j => (BitVec.ofNat 64 j).toNat) = List.range 32 := rfl
    rw [if_pos htrap, rounds_genRound isr_tab idt (PRESENT ||| GATE_INT), gate64_congr hother]
    exact rounds_genRound_own isr_tab idt rfl (hids ▸ List.nodup_range) (List.mem_range.mpr htrap)
      (by omega) m
  · rw [if_neg htrap]
    exact rounds_genRound_own isr_tab idt rfl (hirqs ▸ List.nodup_range') (hmem.mpr (by omega))
      (by omega) _

/-- **The kernel's vectors**: each goes to its handler, and there are no others. -/
theorem interruptsInit_vectors (s : IntState δ) (v : ℕ) :
    vector64 (interruptsInit isr_tab idt dev s).2.idtr (interruptsInit isr_tab idt dev s).2.mem v =
      if v < 48 then some (plainGate (isr_tab v) v) else none := by
  have hidtr : (interruptsInit isr_tab idt dev s).2.idtr = ⟨idt, 16 * 48 - 1⟩ := rfl
  have hmem : (interruptsInit isr_tab idt dev s).2.mem = fillIdt isr_tab idt s.mem := rfl
  rw [hidtr, hmem, vector64_of_limit (by norm_num)]
  by_cases hv : v < 48
  · rw [if_pos hv, if_pos hv, fillIdt_gate isr_tab idt s.mem hv]
  · rw [if_neg hv, if_neg hv]

end interruptsInit

/-! ### The task state segment -/

section labels

variable (gdtr : ℕ)

def gdtNull : ℕ := gdtr + 10
def gdtTss : ℕ := gdtNull gdtr + 24
def basel : ℕ := gdtTss gdtr + 2
def baseh : ℕ := basel gdtr + 2
def gdtEnd : ℕ := baseh gdtr + 12

/-- The directives from `gdtr` to `gdt_end`. -/
def gdtDirectives : List (ℕ × ℕ) :=
  [(2, gdtEnd gdtr - gdtNull gdtr - 1), (8, gdtNull gdtr),
    (8, 0x0000000000000000), (8, 0x00209A0000000000), (8, 0x0000920000000000),
    (2, 0x00000068), (2, 0x0000), (4, 0x11008900), (4, 0xFFFFFFFF), (4, 0x00000000)]

/-- The memory behind the assembler and the loader. -/
def gdtSection (m : Mem) : Mem := emit m gdtr (gdtDirectives gdtr)

end labels

/-- What `init_gdt` works on. -/
structure SegState where
  mem : Mem
  rax : BitVec 64
  gdtr : TableReg
  ds : BitVec 16
  es : BitVec 16
  ss : BitVec 16
  fs : BitVec 16
  gs : BitVec 16

/-- `init_gdt`, from `mov rax, tss` to `mov gs, ax`; a store of `ax` or `al` takes the low bytes of
`rax`. -/
def initGdt (tss : BitVec 64) (gdtr : ℕ) (s : SegState) : SegState :=
  let s := { s with rax := tss }
  let s := { s with mem := writeLE 2 s.mem (basel gdtr) s.rax.toNat }
  let s := { s with rax := s.rax >>> 16 }
  let s := { s with mem := writeLE 1 s.mem (baseh gdtr) s.rax.toNat }
  let s := { s with rax := s.rax >>> 8 }
  let s := { s with mem := writeLE 1 s.mem (baseh gdtr + 3) s.rax.toNat }
  let s := { s with gdtr := { base := readLE 8 s.mem (gdtr + 2), limit := readLE 2 s.mem gdtr } }
  let s := { s with rax := s.rax &&& ~~~0xFFFF ||| 0x10 }
  let ax := s.rax.setWidth 16
  { s with ds := ax, es := ax, ss := ax, fs := ax, gs := ax }

section initGdt

variable (tss : BitVec 64) (gdtr : ℕ) (s : SegState)

theorem initGdt_mem : (initGdt tss gdtr s).mem =
    writeLE 1 (writeLE 1 (writeLE 2 s.mem (gdtTss gdtr + 2) tss.toNat) (gdtTss gdtr + 4)
      (tss.toNat / 2 ^ 16)) (gdtTss gdtr + 7) (tss.toNat / 2 ^ 24) := by
  have h16 : (tss >>> 16).toNat = tss.toNat / 2 ^ 16 := by
    rw [BitVec.toNat_ushiftRight, Nat.shiftRight_eq_div_pow]
  have h24 : (tss >>> 16 >>> 8).toNat = tss.toNat / 2 ^ 24 := by
    rw [BitVec.toNat_ushiftRight, h16, Nat.shiftRight_eq_div_pow, Nat.div_div_eq_div_mul]
    rfl
  rw [← h16, ← h24]
  rfl

theorem initGdt_other {b k : ℕ} (h : b + k ≤ gdtTss gdtr + 2 ∨
    gdtTss gdtr + 5 ≤ b ∧ b + k ≤ gdtTss gdtr + 7 ∨ gdtTss gdtr + 8 ≤ b) :
    readLE k (initGdt tss gdtr s).mem b = readLE k s.mem b := by
  rw [initGdt_mem, readLE_writeLE_disjoint (by omega), readLE_writeLE_disjoint (by omega),
    readLE_writeLE_disjoint (by omega)]

theorem initGdt_pieces : readLE 2 (initGdt tss gdtr s).mem (gdtTss gdtr + 2) =
      tss.toNat % 2 ^ 16 ∧
    readLE 1 (initGdt tss gdtr s).mem (gdtTss gdtr + 4) = tss.toNat / 2 ^ 16 % 2 ^ 8 ∧
    readLE 1 (initGdt tss gdtr s).mem (gdtTss gdtr + 7) = tss.toNat / 2 ^ 24 % 2 ^ 8 := by
  rw [initGdt_mem]
  refine ⟨?_, ?_, readLE_writeLE ..⟩
  · rw [readLE_writeLE_disjoint (by omega), readLE_writeLE_disjoint (by omega)]
    exact readLE_writeLE ..
  · rw [readLE_writeLE_disjoint (by omega)]
    exact readLE_writeLE ..

/-- **The patched descriptor.**  The pieces of the base below bit 32 are stored; the high half, the
limit and the type stay. -/
theorem initGdt_segment : systemSegment (initGdt tss gdtr s).mem (gdtTss gdtr) =
    { systemSegment s.mem (gdtTss gdtr) with
      base := BitVec.ofNat 64
        (tss.toNat % 2 ^ 32 + 2 ^ 32 * readLE 4 s.mem (gdtTss gdtr + 8)) } := by
  have hbase : tss.toNat % 2 ^ 16 + 2 ^ 16 * (tss.toNat / 2 ^ 16 % 2 ^ 8) +
      2 ^ 24 * (tss.toNat / 2 ^ 24 % 2 ^ 8) = tss.toNat % 2 ^ 32 := by omega
  obtain ⟨h2, h4, h7⟩ := initGdt_pieces tss gdtr s
  unfold systemSegment
  rw [h2, h4, h7, hbase, initGdt_other tss gdtr s (k := 2) (by omega),
    initGdt_other tss gdtr s (k := 4) (by omega),
    initGdt_other tss gdtr s (b := gdtTss gdtr + 5) (by omega),
    initGdt_other tss gdtr s (b := gdtTss gdtr + 6) (by omega)]

end initGdt

section assembled

variable (gdtr : ℕ) (m : Mem)

theorem gdtSection_read {i n v : ℕ} (hi : (gdtDirectives gdtr).getD i (0, 0) = (n, v)) {o k b : ℕ}
    (hk : o + k ≤ n) (hb : b = gdtr + emitOffset (gdtDirectives gdtr) i + o) :
    readLE k (gdtSection gdtr m) b = v / 256 ^ o % 256 ^ k := by
  rw [hb]
  exact readLE_emit hi hk m gdtr

theorem gdtSection_high : readLE 4 (gdtSection gdtr m) (gdtTss gdtr + 8) = 0xFFFFFFFF :=
  gdtSection_read gdtr m (i := 8) (o := 0) rfl le_rfl rfl

/-- What the descriptor is assembled as; its base is a placeholder. -/
theorem gdtSection_segment : systemSegment (gdtSection gdtr m) (gdtTss gdtr) =
    { base := 0xFFFFFFFF11000000, limit := 0x68, type := 0x89, flags := 0 } := by
  have hlimit : readLE 2 (gdtSection gdtr m) (gdtTss gdtr) = 0x68 :=
    gdtSection_read gdtr m (i := 5) (o := 0) rfl le_rfl rfl
  have hbasel : readLE 2 (gdtSection gdtr m) (gdtTss gdtr + 2) = 0x0000 :=
    gdtSection_read gdtr m (i := 6) (o := 0) rfl le_rfl rfl
  have hbaseh : ∀ o < 4, readLE 1 (gdtSection gdtr m) (gdtTss gdtr + 4 + o) =
      0x11008900 / 256 ^ o % 256 ^ 1 :=
    fun o ho => gdtSection_read gdtr m (i := 7) rfl ho rfl
  have h4 : readLE 1 (gdtSection gdtr m) (gdtTss gdtr + 4) = 0x00 := hbaseh 0 (by norm_num)
  have h5 : readLE 1 (gdtSection gdtr m) (gdtTss gdtr + 5) = 0x89 := hbaseh 1 (by norm_num)
  have h6 : readLE 1 (gdtSection gdtr m) (gdtTss gdtr + 6) = 0x00 := hbaseh 2 (by norm_num)
  have h7 : readLE 1 (gdtSection gdtr m) (gdtTss gdtr + 7) = 0x11 := hbaseh 3 (by norm_num)
  unfold systemSegment
  rw [hlimit, hbasel, h4, h5, h6, h7, gdtSection_high]
  rfl

end assembled

/-- The state in which the kernel is loaded. -/
def loaded (gdtr : ℕ) (s : SegState) : SegState := { s with mem := gdtSection gdtr s.mem }

section loaded

variable (tss : BitVec 64) (gdtr : ℕ) (s : SegState)

/-- **The base is that of the segment** for every address whose high half the descriptor has been
assembled with, and for no other. -/
theorem tssBase_iff : (systemSegment (initGdt tss gdtr (loaded gdtr s)).mem (gdtTss gdtr)).base =
    tss ↔ 0xFFFFFFFF00000000 ≤ tss := by
  have hlt := tss.isLt
  have hleast : (0xFFFFFFFF00000000 : BitVec 64).toNat = 0xFFFFFFFF00000000 := rfl
  have hhigh : readLE 4 (loaded gdtr s).mem (gdtTss gdtr + 8) = 0xFFFFFFFF :=
    gdtSection_high gdtr s.mem
  rw [initGdt_segment, hhigh, BitVec.le_def, hleast]
  constructor
  · intro h
    have hnat := congrArg BitVec.toNat h
    rw [BitVec.toNat_ofNat] at hnat
    omega
  · intro h
    apply BitVec.eq_of_toNat_eq
    rw [BitVec.toNat_ofNat]
    omega

theorem tssSegment_eq (htss : 0xFFFFFFFF00000000 ≤ tss) :
    systemSegment (initGdt tss gdtr (loaded gdtr s)).mem (gdtTss gdtr) =
      { systemSegment (loaded gdtr s).mem (gdtTss gdtr) with base := tss } := by
  have hbase := (tssBase_iff tss gdtr s).mpr htss
  rw [initGdt_segment] at hbase ⊢
  rw [SystemSegment.mk.injEq]
  exact ⟨hbase, rfl, rfl, rfl⟩

/-- What `lgdt` loads: the table with its two segments and the descriptor behind them. -/
theorem initGdt_gdtr (hfit : gdtEnd gdtr ≤ 2 ^ 64) :
    (initGdt tss gdtr (loaded gdtr s)).gdtr = { base := gdtNull gdtr, limit := 39 } := by
  have hend : gdtEnd gdtr = gdtr + 50 := rfl
  have hnull : gdtNull gdtr = gdtr + 10 := rfl
  have htss : gdtTss gdtr = gdtr + 34 := rfl
  have hlimit : readLE 2 (loaded gdtr s).mem gdtr =
      (gdtEnd gdtr - gdtNull gdtr - 1) / 256 ^ 0 % 256 ^ 2 :=
    gdtSection_read gdtr s.mem (i := 0) (o := 0) rfl le_rfl rfl
  have hbase : readLE 8 (loaded gdtr s).mem (gdtr + 2) = gdtNull gdtr / 256 ^ 0 % 256 ^ 8 :=
    gdtSection_read gdtr s.mem (i := 1) (o := 0) rfl le_rfl rfl
  have hload : (initGdt tss gdtr (loaded gdtr s)).gdtr =
      { base := readLE 8 (initGdt tss gdtr (loaded gdtr s)).mem (gdtr + 2),
        limit := readLE 2 (initGdt tss gdtr (loaded gdtr s)).mem gdtr } := rfl
  rw [hload, initGdt_other _ _ _ (by omega), initGdt_other _ _ _ (by omega), hlimit, hbase]
  rw [TableReg.mk.injEq]
  omega

end loaded

/-- **The tables give back the addresses.**  Every vector of the kernel and of the loader goes to
its handler, `gen_entry` of the loader changes its own entry only, and the task state segment lies
where its descriptor says. -/
theorem descriptors_exact {δ : Type} (dev : Device δ) (isr_tab : ℕ → BitVec 64) (idt : ℕ)
    (k : IntState δ) (isr : Stage2.IsrAddresses) (idt32 : ℕ) (drdy : BitVec 32)
    (b : Stage2.IdtState δ) (tss : BitVec 64) (gdtr : ℕ) (s : SegState)
    (htss : 0xFFFFFFFF80000000 ≤ tss) :
    (∀ i < 48, gate64 (interruptsInit isr_tab idt dev k).2.mem (idt + 16 * i) =
      some { target := isr_tab i, selector := 8, ist := 0, dpl := 0,
             kind := if i < 32 then .trap else .interrupt }) ∧
    (∀ id sel offset attr,
      offset32 (Stage2.genEntry idt32 b.mem id sel offset attr) (idt32 + 8 * id.toNat) = offset ∧
      ∀ j ≠ id.toNat,
        AgreeOn (Stage2.genEntry idt32 b.mem id sel offset attr) b.mem (idt32 + 8 * j) 8) ∧
    (∀ i < 48, gate32 (Stage2.initIdt isr dev idt32 drdy b).mem (idt32 + 8 * i) =
      some (plainGate (Stage2.handlerOf isr i) i)) ∧
    (systemSegment (initGdt tss gdtr (loaded gdtr s)).mem (gdtTss gdtr)).base = tss ∧
    systemSegment (initGdt tss gdtr (loaded gdtr s)).mem (gdtTss gdtr) =
      { systemSegment (loaded gdtr s).mem (gdtTss gdtr) with base := tss } := by
  have hhigh : 0xFFFFFFFF00000000 ≤ tss := by
    have hle : (0xFFFFFFFF00000000 : BitVec 64) ≤ 0xFFFFFFFF80000000 := by decide
    exact BitVec.le_trans hle htss
  refine ⟨fun i hi => fillIdt_gate isr_tab idt k.mem hi, ?_,
    fun i hi => Stage2.initIdt_gate isr dev idt32 drdy b hi, (tssBase_iff tss gdtr s).mpr hhigh,
    tssSegment_eq tss gdtr s hhigh⟩
  intro id sel offset attr
  exact ⟨(Stage2.genEntry_own idt32 b.mem id sel offset attr).1,
    fun j hj => Stage2.genEntry_other idt32 b.mem id sel offset attr hj⟩

/-- Ports with nothing behind them. -/
def noPorts : Device Unit where
  inb _ d := (0xFF, d)
  outb _ _ d := d
  insw _ n d := (List.replicate n 0xFFFF, d)
  outsw _ _ d := d
  irq d := (0, d)
  insw_length _ _ _ := List.length_replicate

theorem descriptors_exact_sample :
    gate64 (interruptsInit (fun i => 0xFFFFFFFF80100000 + BitVec.ofNat 64 (16 * i)) 0x2000 noPorts
        ⟨fun _ => 0, ⟨0, 0⟩, false, ()⟩).2.mem (0x2000 + 16 * 33) =
      some { target := 0xFFFFFFFF80100210, selector := 8, ist := 0, dpl := 0,
             kind := .interrupt } ∧
    offset32 (Stage2.genEntry 0x500 (fun _ => 0) 46 0x08 0x12345678 0x8E) 0x670 = 0x12345678 ∧
    systemSegment (initGdt 0xFFFFFFFF80012345 0x4000
        (loaded 0x4000 ⟨fun _ => 0, 0, ⟨0, 0⟩, 0, 0, 0, 0, 0⟩)).mem 0x4022 =
      { systemSegment (loaded 0x4000 ⟨fun _ => 0, 0, ⟨0, 0⟩, 0, 0, 0, 0, 0⟩).mem 0x4022 with
        base := 0xFFFFFFFF80012345 } := by
  obtain ⟨hkernel, hentry, -, -, htss⟩ := descriptors_exact noPorts
    (fun i => 0xFFFFFFFF80100000 + BitVec.ofNat 64 (16 * i)) 0x2000 ⟨fun _ => 0, ⟨0, 0⟩, false, ()⟩
    ⟨0, 0, 0, 0, 0, 0⟩ 0x500 0 ⟨fun _ => 0, 0, ⟨0, 0⟩, false, ()⟩ 0xFFFFFFFF80012345 0x4000
    ⟨fun _ => 0, 0, ⟨0, 0⟩, 0, 0, 0, 0, 0⟩ (by decide)
  exact ⟨hkernel 33 (by norm_num), (hentry 46 0x08 0x12345678 0x8E).1, htss⟩

end Ziemniak.Kernel
