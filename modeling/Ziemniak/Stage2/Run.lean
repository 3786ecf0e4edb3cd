import Ziemniak.BareMetal.AddressSpace
import Ziemniak.Stage2.Loading

/-! # The way into the kernel

`run` of `stub.asm`, instruction by instruction.  It finds its arguments on the stack of `main`,
turns paging on with the tables it was given and reads the rest of its arguments through them.
`run_jumps` says that the registers of the jump are those of `Jump`. -/

namespace Ziemniak.Stage2

open BareMetal BareMetal.Paging

/-! ### The source -/

/-- The directives from `gdtr_64` to `gdt_64_end`. -/
def gdt64Directives (gdtr_64 : ℕ) : List (ℕ × ℕ) :=
  [(2, 3 * 8 - 1), (4, gdtr_64 + 6), (8, 0x0000000000000000), (8, 0x00209A0000000000),
    (8, 0x0000920000000000)]

/-- `run` up to the far jump, 32-bit code: the tables, the model-specific register, `cr0`, the
segments. -/
def setTables : List Op :=
  [.reg .cli, .reg (.movImm .rax 0xA0), .toCr .cr4 .rax, .load 4 .rdx .rsp 12, .toCr .cr3 .rdx]

def setLongMode : List Op :=
  [.reg (.movImm .rcx 0xC0000080), .rdmsr, .reg (.or32 .rax (1#32 <<< 8)), .wrmsr]

def setPaging : List Op :=
  [.reg (.fromCr .rbx .cr0), .reg (.or32 .rbx (1#32 <<< 31)), .toCr .cr0 .rbx]

def setSegments (gdtr_64 : ℕ) : List Op := [.lgdt 4 (BitVec.ofNat 64 gdtr_64), .jmpFar 0x08]

/-- `long_mode`, up to the jump to `rbx`. -/
def loadArguments : List Op :=
  [.load 8 .rbx .rsp 4, .reg (.xor .rcx .rcx), .load 4 .rcx .rsp 16,
    .reg (.movImm .rax 0xFFFFFFFFFFFFFFF0), .reg (.mov .rsp .rax), .reg (.movImm16 .rax 0x10)]

def dataSegments : List Op := [Seg.ds, .es, .fs, .gs, .ss].map (.movSeg · .rax)

def longMode : List Op := loadArguments ++ (dataSegments ++ [.reg (.mov .rax .rcx)])

/-- `run` -/
def run (gdtr_64 : ℕ) : List Op :=
  setTables ++ (setLongMode ++ (setPaging ++ (setSegments gdtr_64 ++ longMode)))

/-- The stack pointer that the call `run(start, page_tab, lm_data)` leaves, from `esp`. -/
def runFrame (esp : ℕ) : ℕ := esp - 20

/-- The stack of that call, with the arguments above the return address. -/
def pushRun (ret : BitVec 32) (start : BitVec 64) (page_tab lm_data : BitVec 32) (esp : ℕ)
    (m : Mem) : Mem :=
  let m := writeLE 4 m (esp - 4) lm_data.toNat
  let m := writeLE 4 m (esp - 8) page_tab.toNat
  let m := writeLE 8 m (esp - 16) start.toNat
  writeLE 4 m (runFrame esp) ret.toNat

/-! ### The run -/

/-- The first megabyte is mapped to itself as soon as paging is on. -/
def LowMapped (s : Machine) (cr3 : BitVec 64) : Prop :=
  ∀ v : BitVec 64, v.toNat < 2 ^ 20 → walk s.mem cr3 v = some v.toNat

theorem load_low {s : Machine} {n : ℕ} {v : BitVec 64} (hv : v.toNat + n ≤ 2 ^ 20)
    (hlow : paging s.cr = true → LowMapped s (s.cr .cr3)) :
    s.load mmu n v = some (readLE n s.mem v.toNat) := by
  apply Machine.load_eq
  intro i hi
  have hi64 : (v + BitVec.ofNat 64 i).toNat = v.toNat + i := toNat_add_ofNat (by omega)
  unfold mmu
  by_cases hp : paging s.cr = true
  · rw [if_pos hp, hlow hp _ (by omega), hi64]
  · rw [if_neg hp, hi64]

theorem argument_toNat (x : BitVec 64) (off : BitVec 32) (h : x.toNat + off.toNat < 2 ^ 32) :
    ((x.setWidth 32 + off).setWidth 64).toNat = x.toNat + off.toNat := by
  simp only [BitVec.toNat_setWidth, BitVec.toNat_add]
  omega

theorem load_argument {s : Machine} {n : ℕ} {x : BitVec 64} {off : BitVec 32}
    (hx : x.toNat + off.toNat + n ≤ 2 ^ 20)
    (hlow : paging s.cr = true → LowMapped s (s.cr .cr3)) :
    s.load mmu n ((x.setWidth 32 + off).setWidth 64) =
      some (readLE n s.mem (x.toNat + off.toNat)) := by
  have haddr := argument_toNat x off (by omega)
  rw [load_low (by omega) hlow, haddr]

section blocks

variable {s : Machine}

theorem setTables_run {page_tab : BitVec 32} (hoff : paging s.cr = false)
    (hesp : (s.gpr .rsp).toNat + 16 ≤ 2 ^ 20)
    (htab : readLE 4 s.mem ((s.gpr .rsp).toNat + 12) = page_tab.toNat) :
    ∃ g, runOps mmu setTables s = some { s with
        gpr := g
        cr := Function.update (Function.update s.cr .cr4 0xA0) .cr3 (page_tab.setWidth 64)
        enabled := false } ∧
      g .rsp = s.gpr .rsp := by
  have hcr4 : ∀ v, paging (Function.update s.cr .cr4 v) = false := fun _ => hoff
  have hcr3 : ∀ v w, paging (Function.update (Function.update s.cr .cr4 v) .cr3 w) = false :=
    fun _ _ => hoff
  unfold setTables
  simp only [runOps_cons, runOps_nil, Op.exec, RegOp.exec, Machine.set, Option.bind_some,
    admissible_off (hcr4 _), if_true]
  rw [load_argument hesp (fun h => absurd h (by simp [hcr4]))]
  have harg : readLE 4 s.mem ((Function.update s.gpr .rax 0xA0 .rsp).toNat +
      (12 : BitVec 32).toNat) = page_tab.toNat := htab
  simp only [Option.bind_eq_bind, Option.bind_some, Option.pure_def, Function.update_self, harg,
    BitVec.ofNat_toNat, runOps_cons, runOps_nil, Op.exec, admissible_off (hcr3 _ _), if_true]
  exact ⟨_, rfl, rfl⟩

/-- The register is read and written back in two halves. -/
theorem efer_halves (x : BitVec 64) :
    (x >>> 32).setWidth 32 ++ ((x.setWidth 32 ||| 1#32 <<< 8).setWidth 64).setWidth 32 =
      x ||| 1#64 <<< 8 := by
  have hlow : (1#32 <<< 8 : BitVec 32) = (1#64 <<< 8).setWidth 32 := by decide
  have hhigh : ((1#64 <<< 8) >>> 32).setWidth 32 = 0#32 := by decide
  have hsplit : ∀ y : BitVec 64, (y >>> 32).setWidth 32 ++ y.setWidth 32 = y := by
    intro y
    apply BitVec.eq_of_toNat_eq
    have hy := y.isLt
    rw [toNat_append_eq]
    simp only [BitVec.toNat_setWidth, BitVec.toNat_ushiftRight, Nat.shiftRight_eq_div_pow]
    omega
  have hlo : ((x.setWidth 32 ||| 1#32 <<< 8).setWidth 64).setWidth 32 =
      (x ||| 1#64 <<< 8).setWidth 32 := by
    rw [BitVec.setWidth_setWidth_of_le _ (by decide), BitVec.setWidth_eq, hlow, BitVec.setWidth_or]
  have hhi : (x >>> 32).setWidth 32 = ((x ||| 1#64 <<< 8) >>> 32).setWidth 32 := by
    rw [BitVec.ushiftRight_or_distrib, BitVec.setWidth_or, hhigh, BitVec.or_zero]
  rw [hlo, hhi, hsplit]

theorem setLongMode_run (hoff : paging s.cr = false) :
    ∃ g, runOps mmu setLongMode s = some { s with gpr := g, efer := s.efer ||| 1#64 <<< 8 } ∧
      g .rsp = s.gpr .rsp := by
  have hmsr : ((0xC0000080 : BitVec 64)).setWidth 32 = MSR_EFER := by decide
  unfold setLongMode
  simp only [runOps_cons, runOps_nil, Op.exec, RegOp.exec, Machine.set, Option.bind_some,
    Function.update_self, Function.update_of_ne (show Gpr.rcx ≠ Gpr.rax by decide),
    Function.update_of_ne (show Gpr.rcx ≠ Gpr.rdx by decide),
    Function.update_of_ne (show Gpr.rax ≠ Gpr.rdx by decide),
    Function.update_of_ne (show Gpr.rdx ≠ Gpr.rax by decide), hmsr, hoff, and_self, if_true]
  have hround : ((s.efer.setWidth 32).setWidth 64).setWidth 32 = s.efer.setWidth 32 := by
    rw [BitVec.setWidth_setWidth_of_le _ (by decide), BitVec.setWidth_eq]
  rw [hround, efer_halves]
  exact ⟨_, rfl, rfl⟩

/-- What `cr0` is set to. -/
def pagedCr0 (cr0 : BitVec 64) : BitVec 64 := (cr0.setWidth 32 ||| 1#32 <<< 31).setWidth 64

theorem pagedCr0_paging (cr0 : BitVec 64) : (pagedCr0 cr0).getLsbD 31 = true := by
  unfold pagedCr0
  rw [BitVec.getLsbD_setWidth, BitVec.getLsbD_or]
  simp

theorem setPaging_run (hpae : (s.cr .cr4).getLsbD 5 = true) (hlme : s.efer.getLsbD 8 = true) :
    ∃ g, runOps mmu setPaging s = some { s with
        gpr := g
        cr := Function.update s.cr .cr0 (pagedCr0 (s.cr .cr0)) } ∧
      g .rsp = s.gpr .rsp := by
  have hadm : ∀ v, admissible (Function.update s.cr .cr0 v) s.efer = true := by
    intro v
    unfold admissible
    rw [Function.update_of_ne (by decide), hpae, hlme]
    simp
  unfold setPaging
  simp only [runOps_cons, runOps_nil, Op.exec, RegOp.exec, Machine.set, Option.bind_some,
    Function.update_self, hadm, if_true]
  exact ⟨_, rfl, rfl⟩

variable {g : ℕ} (hg : g + 30 ≤ 2 ^ 20)
  (hgdt : AgreeOn s.mem (emit (fun _ => 0) g (gdt64Directives g)) g 30)
  (hlow : LowMapped s (s.cr .cr3))

include hgdt in
theorem gdt64_read {i n v : ℕ} (hi : (gdt64Directives g).getD i (0, 0) = (n, v))
    (hin : emitOffset (gdt64Directives g) i + n ≤ 30) :
    readLE n s.mem (g + emitOffset (gdt64Directives g) i) = v % 256 ^ n := by
  have hread := readLE_emit hi (o := 0) (k := n) (by omega) (fun _ => 0) g
  rw [hgdt.readLE hin]
  simpa using hread

include hg hgdt hlow

theorem descriptor_gdt64 (hgdtr : s.gdtr = { base := g + 6, limit := 23 }) {sel : BitVec 16}
    (hsel : sel = 0x08 ∨ sel = 0x10) : s.descriptor mmu sel =
      some (if sel = 0x08 then 0x00209A0000000000 else 0x0000920000000000) := by
  have hcode := gdt64_read hgdt (i := 3) (n := 8) rfl (by simp [emitOffset, gdt64Directives])
  have hdata := gdt64_read hgdt (i := 4) (n := 8) rfl (by simp [emitOffset, gdt64Directives])
  have hload : ∀ a, a + 8 ≤ 2 ^ 20 →
      s.load mmu 8 (BitVec.ofNat 64 a) = some (readLE 8 s.mem a) := by
    intro a ha
    have h64 : (BitVec.ofNat 64 a).toNat = a := by
      rw [BitVec.toNat_ofNat]
      omega
    rw [load_low (by omega) (fun _ => hlow), h64]
  unfold Machine.descriptor
  cases hsel with
  | inl h =>
      subst h
      rw [hgdtr]
      simp only
      rw [if_pos (by decide), hload _ (by simp; omega)]
      exact congrArg (fun x => some (BitVec.ofNat 64 x)) hcode
  | inr h =>
      subst h
      rw [hgdtr]
      simp only
      rw [if_pos (by decide), hload _ (by simp; omega)]
      exact congrArg (fun x => some (BitVec.ofNat 64 x)) hdata

theorem setSegments_run : runOps mmu (setSegments g) s = some { s with
    gdtr := { base := g + 6, limit := 23 }
    seg := Function.update s.seg .cs 0x08 } := by
  have hlimit := gdt64_read hgdt (i := 0) (n := 2) rfl (by simp [emitOffset, gdt64Directives])
  have hbase := gdt64_read hgdt (i := 1) (n := 4) rfl (by simp [emitOffset, gdt64Directives])
  have h0 : (BitVec.ofNat 64 g).toNat = g := by
    rw [BitVec.toNat_ofNat]
    omega
  have h2 : (BitVec.ofNat 64 g + 2).toNat = g + 2 := by
    rw [BitVec.toNat_add, h0]
    simp
    omega
  have hmod : (g + 6) % 256 ^ 4 = g + 6 := Nat.mod_eq_of_lt (by omega)
  have hload2 : s.load mmu 2 (BitVec.ofNat 64 g) = some 23 := by
    rw [load_low (by omega) (fun _ => hlow), h0]
    exact congrArg some hlimit
  have hload4 : s.load mmu 4 (BitVec.ofNat 64 g + 2) = some (g + 6) := by
    rw [load_low (by omega) (fun _ => hlow), h2]
    exact congrArg some (hbase.trans hmod)
  have hcs := descriptor_gdt64 (s := { s with gdtr := { base := g + 6, limit := 23 } }) hg hgdt hlow
    rfl (Or.inl rfl)
  unfold setSegments
  simp only [runOps_cons, runOps_nil, Op.exec, hload2, hload4, Machine.loadSeg, hcs,
    Option.bind_eq_bind, Option.bind_some, Option.pure_def, if_true]
  rfl

omit hg hgdt in
theorem loadArguments_run (hesp : (s.gpr .rsp).toNat + 20 ≤ 2 ^ 20) {start : BitVec 64}
    {lm_data : BitVec 32} (hstart : readLE 8 s.mem ((s.gpr .rsp).toNat + 4) = start.toNat)
    (hlm : readLE 4 s.mem ((s.gpr .rsp).toNat + 16) = lm_data.toNat) :
    ∃ r, runOps mmu loadArguments s = some { s with gpr := r } ∧ r .rbx = start ∧
      r .rcx = lm_data.setWidth 64 ∧ r .rsp = 0xFFFFFFFFFFFFFFF0 ∧
      (r .rax).setWidth 16 = 0x10#16 := by
  have harg4 : readLE 8 s.mem ((s.gpr .rsp).toNat + (4 : BitVec 32).toNat) = start.toNat := hstart
  have hx4 : (s.gpr .rsp).toNat + (4 : BitVec 32).toNat + 8 ≤ 2 ^ 20 := by
    have h4 : (4 : BitVec 32).toNat = 4 := rfl
    omega
  have hx16 : (s.gpr .rsp).toNat + (16 : BitVec 32).toNat + 4 ≤ 2 ^ 20 := hesp
  have hload16 : ∀ r : Gpr → BitVec 64, r .rsp = s.gpr .rsp →
      ({ s with gpr := r } : Machine).load mmu 4 (((r .rsp).setWidth 32 + 16).setWidth 64) =
        some lm_data.toNat := by
    intro r hr
    have harg := load_argument (s := { s with gpr := r }) hx16 (fun _ => hlow)
    rw [hr, harg]
    exact congrArg some hlm
  unfold loadArguments
  simp only [runOps_cons, runOps_nil, Op.exec, RegOp.exec, Machine.set, Option.bind_eq_bind]
  rw [load_argument hx4 (fun _ => hlow), harg4]
  simp only [Option.bind_some, Option.pure_def, runOps_cons, runOps_nil, Op.exec, RegOp.exec,
    Machine.set, Option.bind_eq_bind]
  rw [hload16]
  · simp only [Option.bind_some, BitVec.ofNat_toNat]
    refine ⟨_, rfl, ?_, ?_, ?_, ?_⟩
    · exact BitVec.setWidth_eq start
    · rfl
    · rfl
    · show ((0xFFFFFFFFFFFFFFF0#64 &&& ~~~0xFFFF ||| 0x10#64) : BitVec 64).setWidth 16 = 0x10#16
      decide
  · rfl

/-- The segments of `long_mode`. -/
def longSegments (seg : Seg → BitVec 16) : Seg → BitVec 16 :=
  [Seg.ds, .es, .fs, .gs, .ss].foldl (fun seg g => Function.update seg g 0x10) seg

theorem longMode_run (hgdtr : s.gdtr = { base := g + 6, limit := 23 })
    (hesp : (s.gpr .rsp).toNat + 20 ≤ 2 ^ 20) {start : BitVec 64} {lm_data : BitVec 32}
    (hstart : readLE 8 s.mem ((s.gpr .rsp).toNat + 4) = start.toNat)
    (hlm : readLE 4 s.mem ((s.gpr .rsp).toNat + 16) = lm_data.toNat) :
    ∃ r, runOps mmu longMode s = some { s with gpr := r, seg := longSegments s.seg } ∧
      r .rbx = start ∧ r .rsp = 0xFFFFFFFFFFFFFFF0 ∧ r .rax = lm_data.setWidth 64 := by
  obtain ⟨r, hargs, hrbx, hrcx, hrsp, hrax⟩ := loadArguments_run hlow hesp hstart hlm
  have hdata := descriptor_gdt64 (s := { s with gpr := r }) hg hgdt hlow hgdtr (Or.inr rfl)
  have hsegs := movSegs_run (s := { s with gpr := r }) hrax hdata (by decide)
    [Seg.ds, .es, .fs, .gs, .ss]
  unfold longMode dataSegments
  rw [runOps_append, hargs, Option.bind_some, runOps_append, hsegs]
  refine ⟨_, rfl, hrbx, hrsp, ?_⟩
  rw [← hrcx]
  rfl

end blocks

/-! ### The whole of `run` -/

/-- `run` is entered: 32-bit code with its arguments on the stack and its descriptors in memory,
both in the first megabyte. -/
structure RunEntered (g : ℕ) (start : BitVec 64) (page_tab lm_data : BitVec 32) (s : Machine) :
    Prop where
  off : paging s.cr = false
  low : (s.gpr .rsp).toNat + 20 ≤ 2 ^ 20
  start_at : readLE 8 s.mem ((s.gpr .rsp).toNat + 4) = start.toNat
  page_tab_at : readLE 4 s.mem ((s.gpr .rsp).toNat + 12) = page_tab.toNat
  lm_data_at : readLE 4 s.mem ((s.gpr .rsp).toNat + 16) = lm_data.toNat
  gdt_low : g + 30 ≤ 2 ^ 20
  gdt_at : AgreeOn s.mem (emit (fun _ => 0) g (gdt64Directives g)) g 30

/-- The control registers of the kernel. -/
def kernelCr (cr : Cr → BitVec 64) (page_tab : BitVec 32) : Cr → BitVec 64 :=
  Function.update (Function.update (Function.update cr .cr4 0xA0) .cr3 (page_tab.setWidth 64)) .cr0
    (pagedCr0 (cr .cr0))

theorem kernelCr_paging (cr : Cr → BitVec 64) (page_tab : BitVec 32) :
    paging (kernelCr cr page_tab) = true := pagedCr0_paging _

/-- What `run` leaves, when the first megabyte is mapped to itself. -/
theorem RunEntered.run {g : ℕ} {start : BitVec 64} {page_tab lm_data : BitVec 32} {s : Machine}
    (e : RunEntered g start page_tab lm_data s) (hlow : LowMapped s (page_tab.setWidth 64)) :
    ∃ r, runOps mmu (run g) s = some { s with
        gpr := r
        cr := kernelCr s.cr page_tab
        efer := s.efer ||| 1#64 <<< 8
        seg := longSegments (Function.update s.seg .cs 0x08)
        gdtr := { base := g + 6, limit := 23 }
        enabled := false } ∧
      r .rbx = start ∧ r .rsp = 0xFFFFFFFFFFFFFFF0 ∧ r .rax = lm_data.setWidth 64 := by
  have hesp := e.low
  obtain ⟨r₁, h₁, hrsp₁⟩ := setTables_run e.off (by omega) e.page_tab_at
  obtain ⟨r₂, h₂, hrsp₂⟩ := setLongMode_run (s := { s with
    gpr := r₁
    cr := Function.update (Function.update s.cr .cr4 0xA0) .cr3 (page_tab.setWidth 64)
    enabled := false }) e.off
  have hpae : (0xA0#64).getLsbD 5 = true := by decide
  have hlme : (s.efer ||| 1#64 <<< 8).getLsbD 8 = true := by
    rw [BitVec.getLsbD_or]
    simp
  obtain ⟨r₃, h₃, hrsp₃⟩ := setPaging_run (s := { s with
    gpr := r₂
    cr := Function.update (Function.update s.cr .cr4 0xA0) .cr3 (page_tab.setWidth 64)
    efer := s.efer ||| 1#64 <<< 8
    enabled := false }) hpae hlme
  have hcr : Function.update (Function.update (Function.update s.cr .cr4 0xA0) .cr3
      (page_tab.setWidth 64)) .cr0 (pagedCr0 (s.cr .cr0)) = kernelCr s.cr page_tab := rfl
  have hrsp : r₃ .rsp = s.gpr .rsp := (hrsp₃.trans hrsp₂).trans hrsp₁
  have hlow₃ : (r₃ .rsp).toNat + 20 ≤ 2 ^ 20 := hrsp ▸ hesp
  have hstart : readLE 8 s.mem ((r₃ .rsp).toNat + 4) = start.toNat := hrsp ▸ e.start_at
  have hlm : readLE 4 s.mem ((r₃ .rsp).toNat + 16) = lm_data.toNat := hrsp ▸ e.lm_data_at
  have h₄ := setSegments_run (s := { s with
    gpr := r₃
    cr := kernelCr s.cr page_tab
    efer := s.efer ||| 1#64 <<< 8
    enabled := false }) e.gdt_low e.gdt_at hlow
  obtain ⟨r₅, h₅, hregs⟩ := longMode_run (s := { s with
    gpr := r₃
    cr := kernelCr s.cr page_tab
    efer := s.efer ||| 1#64 <<< 8
    seg := Function.update s.seg .cs 0x08
    gdtr := { base := g + 6, limit := 23 }
    enabled := false }) e.gdt_low e.gdt_at hlow rfl hlow₃ hstart hlm
  refine ⟨r₅, ?_, hregs⟩
  unfold Stage2.run
  rw [runOps_append, h₁, Option.bind_some, runOps_append, h₂, Option.bind_some, runOps_append, h₃,
    Option.bind_some, runOps_append, ← h₅]
  exact congrArg (fun o => o.bind (runOps mmu longMode)) h₄

/-! ### The call of `main` -/

theorem pushRun_frame (ret : BitVec 32) (start : BitVec 64) (page_tab lm_data : BitVec 32) {esp : ℕ}
    (hesp : 20 ≤ esp) (m : Mem) {x : ℕ} (hx : x < esp - 20 ∨ esp ≤ x) :
    pushRun ret start page_tab lm_data esp m x = m x := by
  unfold pushRun runFrame
  rw [writeLE_of_not_mem (by omega), writeLE_of_not_mem (by omega), writeLE_of_not_mem (by omega),
    writeLE_of_not_mem (by omega)]

theorem pushRun_arguments (ret : BitVec 32) (start : BitVec 64) (page_tab lm_data : BitVec 32)
    {esp : ℕ} (hesp : 20 ≤ esp) (m : Mem) :
    readLE 8 (pushRun ret start page_tab lm_data esp m) (runFrame esp + 4) = start.toNat ∧
    readLE 4 (pushRun ret start page_tab lm_data esp m) (runFrame esp + 12) = page_tab.toNat ∧
    readLE 4 (pushRun ret start page_tab lm_data esp m) (runFrame esp + 16) = lm_data.toNat := by
  have h4 : runFrame esp + 4 = esp - 16 := by unfold runFrame; omega
  have h12 : runFrame esp + 12 = esp - 8 := by unfold runFrame; omega
  have h16 : runFrame esp + 16 = esp - 4 := by unfold runFrame; omega
  have hstart := start.isLt
  have htab := page_tab.isLt
  have hlm := lm_data.isLt
  rw [h4, h12, h16]
  unfold pushRun runFrame
  refine ⟨?_, ?_, ?_⟩
  · rw [readLE_writeLE_disjoint (by omega), readLE_writeLE, Nat.mod_eq_of_lt (by omega)]
  · rw [readLE_writeLE_disjoint (by omega), readLE_writeLE_disjoint (by omega), readLE_writeLE,
      Nat.mod_eq_of_lt (by omega)]
  · rw [readLE_writeLE_disjoint (by omega), readLE_writeLE_disjoint (by omega),
      readLE_writeLE_disjoint (by omega), readLE_writeLE, Nat.mod_eq_of_lt (by omega)]

/-- Protected mode behind the call `run(header->start, page_tab, &lm_data)`, with the memory `m`
before it.  The stack lies above `lm_data` and the descriptors of `run`, both in the loader. -/
structure Calls (st : Statics) (h : KernelHeader) (lay : Layout) (g : ℕ) (m : Mem) (s : Machine) :
    Prop where
  off : paging s.cr = false
  esp_le : (s.gpr .rsp).toNat + 20 ≤ 2 ^ 20
  lm_data_below : st.lm_data.toNat + LM_DATA_SIZE ≤ (s.gpr .rsp).toNat
  gdt_below : g + 30 ≤ (s.gpr .rsp).toNat
  gdt_at : AgreeOn m (emit (fun _ => 0) g (gdt64Directives g)) g 30
  mem_eq : ∃ ret, s.mem = pushRun ret h.start lay.page_tab st.lm_data ((s.gpr .rsp).toNat + 20) m

section calls

variable {st : Statics} {h : KernelHeader} {lay : Layout} {g : ℕ} {m : Mem} {s : Machine}

theorem Calls.frame (c : Calls st h lay g m s) {x : ℕ}
    (hx : x < (s.gpr .rsp).toNat ∨ 2 ^ 20 ≤ x) : s.mem x = m x := by
  have hesp := c.esp_le
  obtain ⟨ret, hmem⟩ := c.mem_eq
  rw [hmem]
  exact pushRun_frame _ _ _ _ (by omega) m (by omega)

theorem Calls.entered (c : Calls st h lay g m s) :
    RunEntered g h.start lay.page_tab st.lm_data s := by
  have hesp := c.esp_le
  have hbelow := c.gdt_below
  obtain ⟨ret, hmem⟩ := c.mem_eq
  obtain ⟨hstart, htab, hlm⟩ := pushRun_arguments ret h.start lay.page_tab st.lm_data
    (show 20 ≤ (s.gpr .rsp).toNat + 20 by omega) m
  have hframe : runFrame ((s.gpr .rsp).toNat + 20) = (s.gpr .rsp).toNat := by
    unfold runFrame
    omega
  rw [hframe, ← hmem] at hstart htab hlm
  refine ⟨c.off, hesp, hstart, htab, hlm, by omega, ?_⟩
  intro x hx hx'
  rw [c.frame (by omega)]
  exact c.gdt_at x hx hx'

/-- The tables are in place when `run` starts, and map the first megabyte to itself. -/
theorem Calls.tablesAt (c : Calls st h lay g m s) (R : Regular h lay)
    (hge : 0x100000 ≤ lay.load_buf.toNat) (T : TablesAt h lay m) : TablesAt h lay s.mem := by
  have h1 := R.pages_eq
  apply T.congr R
  intro x hx _
  exact c.frame (by omega)

theorem lowMapped (R : Regular h lay) (T : TablesAt h lay s.mem) :
    LowMapped s (lay.page_tab.setWidth 64) := by
  intro v hv
  rw [T.walk_eq R (Or.inl (by omega))]
  exact translation_low (by omega)

end calls

/-- The tables and the cleared bytes are all that building them stores. -/
theorem built_frame {h : KernelHeader} {lay : Layout} (R : Regular h lay) (m : Mem) {x : ℕ}
    (hx : x < lay.pages.toNat) : built h lay m x = m x := by
  have h1 := R.stack_eq
  have h2 := R.buf_eq
  have h3 := R.buf_lt
  unfold built
  rw [tableStores_eq, writeAll_of_forall]
  · unfold fill
    rw [if_neg (by omega)]
  · intro w hw
    obtain ⟨s, hs, rfl⟩ := List.mem_map.mp hw
    have hslot := R.slot_eq (R.slots_lt s.1 (List.mem_map_of_mem hs))
    simp only [hslot]
    omega

theorem bootKernel_frame {δ : Type} {read : Reader δ}
    (hlen : ∀ lba d r d', read lba d = some (r, d') → r.words.length ≤ 1024) {fuel : ℕ}
    {st : Statics} {mem_map : List MemMap} {h : KernelHeader} {lay : Layout}
    {kernel_lba load_size : BitVec 32} {m : Mem} {d : δ} {j : Jump δ} (R : Regular h lay)
    (hsize : load_size.toNat ≤ roundUp 4096 (imageSize h).toNat)
    (ha : allocate mem_map h = some lay)
    (hrun : bootKernel read fuel st mem_map h kernel_lba load_size m d = some (.running j)) {x : ℕ}
    (hlm : st.lm_data.toNat + LM_DATA_SIZE ≤ x) (hx : x < lay.load_buf.toNat) : j.mem x = m x := by
  obtain ⟨lay', m₁, m₂, d', ha', hb, hl, rfl⟩ := bootKernel_running.mp hrun
  obtain rfl : lay = lay' := Option.some.inj (ha.symm.trans ha')
  obtain ⟨-, -, rfl⟩ := builds_iff.mp ⟨fuel, hb⟩
  have h1 := R.pages_eq
  have h2 := R.stack_eq
  have h3 := R.buf_eq
  have h4 := R.buf_lt
  have hcnt := sectorCount_toNat load_size
  have hdvd := R.load_buf_aligned
  rw [roundUp_page] at h1 hsize
  have hout : m₂ x = built h lay m x :=
    loadSectors_frame hlen (by omega) (by omega) hl (Or.inl hx)
  exact (storeLongModeData_of_le m₂ _ hlm).trans (hout.trans (built_frame R m (by omega)))

/-- The call of `run` with the stack at 0x7FE14, in protected mode. -/
def callingMachine (h : KernelHeader) (lay : Layout) (m : Mem) : Machine where
  gpr r := if r = .rsp then 0x7FE00 else 0
  cr k := if k = .cr0 then 0x11 else 0
  efer := 0
  seg _ := 0x10
  gdtr := { base := 0x2200, limit := 23 }
  direction := false
  enabled := true
  mem := pushRun 0x2100 h.start lay.page_tab plainStatics.lm_data 0x7FE14 m

theorem diskReader_length (disk : Disk) : ∀ lba d r d', diskReader disk lba d = some (r, d') →
    r.words.length ≤ 1024 := by
  rintro lba d r d' hr
  rw [diskReader, Option.some.injEq, Prod.mk.injEq] at hr
  rw [← hr.1, fullReply, sectorWords_length]

theorem callingMachine_calls {read : Reader Unit}
    (hlen : ∀ lba d r d', read lba d = some (r, d') → r.words.length ≤ 1024) {fuel : ℕ}
    {mem_map : List MemMap} {h : KernelHeader} {lay : Layout} {kernel_lba load_size : BitVec 32}
    {j : Jump Unit} (R : Regular h lay) (hsize : load_size.toNat ≤ roundUp 4096 (imageSize h).toNat)
    (ha : allocate mem_map h = some lay)
    (hrun : bootKernel read fuel plainStatics mem_map h kernel_lba load_size
      (emit (fun _ => 0) 0x6000 (gdt64Directives 0x6000)) () = some (.running j)) :
    Calls plainStatics h lay 0x6000 j.mem (callingMachine h lay j.mem) where
  off := by
    show (0x11#64).getLsbD 31 = false
    decide
  esp_le := by
    show 0x7FE00 + 20 ≤ 2 ^ 20
    norm_num
  lm_data_below := by
    show 0x5000 + 63 ≤ 0x7FE00
    norm_num
  gdt_below := by
    show 0x6000 + 30 ≤ 0x7FE00
    norm_num
  gdt_at := by
    intro x hx hx'
    have hlm : plainStatics.lm_data.toNat + LM_DATA_SIZE = 0x503F := rfl
    have hge := allocate_load_buf_ge ha
    exact bootKernel_frame hlen R hsize ha hrun (by omega) (by omega)
  mem_eq := ⟨0x2100, rfl⟩

end Ziemniak.Stage2
