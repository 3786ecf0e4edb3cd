import Ziemniak.Kernel.Descriptors
import Ziemniak.Stage2.Run

/-! # The start of the kernel

`init.asm`, instruction by instruction, from the jump of the loader to the call of `main`.  The code
runs at its linked addresses, behind the tables of the loader; its image and its stack make up one
window (`kernelWindow`), so it can be followed on a flat memory (`start_run`). -/

namespace Ziemniak.Kernel

open BareMetal BareMetal.Paging
open Stage2 (KernelHeader Layout imageSize Regular TablesAt InStackWindow kernelBase)

/-! ### The source -/

/-- From `_start` to `rep stosq`. -/
def clearBss (sbss ebss : BitVec 64) : List Op :=
  [.push .rax, .reg .cld, .reg (.xor .rax .rax), .reg (.movImm .rcx ebss), .reg (.sub .rcx sbss),
    .reg (.shr .rcx 3), .reg (.movImm .rdi sbss), .repStosq]

def initSse : List Op :=
  [.reg (.fromCr .rax .cr0), .reg (.and32 .rax 0xFFFFFFFB), .reg (.or .rax 0x02), .toCr .cr0 .rax,
    .reg (.fromCr .rax .cr4), .reg (.or .rax (3#64 <<< 9)), .toCr .cr4 .rax]

/-- `init_gdt` -/
def patchTss (tss : BitVec 64) (gdtr : ℕ) : List Op :=
  [.reg (.movImm .rax tss), .store 2 (BitVec.ofNat 64 (basel gdtr)) .rax, .reg (.shr .rax 16),
    .store 1 (BitVec.ofNat 64 (baseh gdtr)) .rax, .reg (.shr .rax 8),
    .store 1 (BitVec.ofNat 64 (baseh gdtr + 3)) .rax]

def loadGdt (gdtr : ℕ) : List Op :=
  [.lgdt 8 (BitVec.ofNat 64 gdtr), .reg (.movImm16 .rax 0x10)]

def dataSegments : List Op := [Seg.ds, .es, .ss, .fs, .gs].map (.movSeg · .rax)

def callMain (ret : BitVec 64) : List Op := [.pop .rdi, .reg (.mov .rbp .rsp), .call ret]

/-- From `init_gdt` on. -/
def enterMain (tss : BitVec 64) (gdtr : ℕ) (ret : BitVec 64) : List Op :=
  patchTss tss gdtr ++ (loadGdt gdtr ++ (dataSegments ++ callMain ret))

/-- `_start`, for a task state segment at `tss`, the descriptors at `gdtr` and the `hlt` behind the
call at `ret`. -/
def start (h : KernelHeader) (tss : BitVec 64) (gdtr : ℕ) (ret : BitVec 64) : List Op :=
  clearBss h.sbss h.ebss ++ (initSse ++ enterMain tss gdtr ret)

/-! ### The window of the kernel -/

/-- The pages of the image, and the stack. -/
def KernelSpace (h : KernelHeader) (v : BitVec 64) : Prop :=
  (kernelBase ≤ v.toNat ∧ v.toNat < kernelBase + roundUp 4096 (imageSize h).toNat) ∨
    InStackWindow h v

instance (h : KernelHeader) : DecidablePred (KernelSpace h) := fun _ =>
  inferInstanceAs (Decidable (_ ∨ _))

/-- Where they lie. -/
def kernelPlace (h : KernelHeader) (lay : Layout) (v : BitVec 64) : ℕ :=
  if InStackWindow h v then
    lay.stack.toNat + 4096 + (v.toNat - (2 ^ 64 - h.stack_size.toNat))
  else lay.load_buf.toNat + (v.toNat - kernelBase)

section window

variable {h : KernelHeader} {lay : Layout} (R : Regular h lay) (hS : 4096 ∣ h.stack_size.toNat)

include R hS

theorem translation_kernelPlace {v : BitVec 64} (hv : KernelSpace h v) :
    Stage2.translation h lay v = some (kernelPlace h lay v) := by
  have h4 := R.stack_le
  have h5 := v.isLt
  unfold kernelPlace
  by_cases hst : InStackWindow h v
  · have hlo : 2 ^ 64 ≤ v.toNat + h.stack_size.toNat := hst
    rw [if_pos hst, ← (R.builds (fun _ => 0)).walk_eq R (Or.inr (by omega))]
    exact (R.builds (fun _ => 0)).walk_stack R hS hst
  · rw [if_neg hst]
    obtain ⟨hlo, hhi⟩ := hv.resolve_right hst
    exact Stage2.translation_kernel R hlo hhi

/-- **The kernel's window**: the image and the stack are mapped, byte for byte, to places of their
own outside the tables. -/
theorem kernelWindow {cr : Cr → BitVec 64} (hpg : paging cr = true)
    (hcr3 : cr .cr3 = lay.page_tab.setWidth 64) :
    Window (KernelSpace h) (kernelPlace h lay) (TablesAt h lay) cr := by
  have h1 := R.pages_eq
  have h2 := R.stack_eq
  have h3 := R.buf_eq
  have h4 := R.stack_le
  have h5 := R.image_le
  have hbase : kernelBase = 0xFFFFFFFF80000000 := rfl
  have hplace : ∀ v, KernelSpace h v →
      (kernelPlace h lay v < lay.pages.toNat ∨ lay.stack.toNat ≤ kernelPlace h lay v) := by
    intro v hv
    unfold kernelPlace
    by_cases hst : InStackWindow h v
    · rw [if_pos hst]
      omega
    · rw [if_neg hst]
      obtain ⟨hlo, hhi⟩ := hv.resolve_right hst
      omega
  refine ⟨?_, ?_, ?_⟩
  · intro m T v hv
    have hcan : Canonical v := by
      cases hv with
      | inl hv => exact Or.inr (by omega)
      | inr hv =>
          unfold InStackWindow at hv
          exact Or.inr (by omega)
    unfold mmu
    rw [if_pos hpg, hcr3, T.walk_eq R hcan]
    exact translation_kernelPlace R hS hv
  · intro v w hv hw he
    have hv64 := v.isLt
    have hw64 := w.isLt
    apply BitVec.eq_of_toNat_eq
    unfold kernelPlace at he
    unfold KernelSpace InStackWindow at hv hw
    split_ifs at he with hst hst' hst'
    all_goals
      unfold InStackWindow at *
      omega
  · intro m v b T hv
    have hout := hplace v hv
    apply T.congr R
    intro x hx hx'
    exact if_neg (by omega)

end window

/-! ### On a flat memory -/

section flat

variable {W : BitVec 64 → Prop} [DecidablePred W] {s : Machine}

/-- The addresses of the `n` bytes at `a`. -/
def Covers (W : BitVec 64 → Prop) (a n : ℕ) : Prop :=
  a + n ≤ 2 ^ 64 ∧ ∀ w : BitVec 64, a ≤ w.toNat → w.toNat < a + n → W w

omit [DecidablePred W] in
theorem Covers.mono {a n b k : ℕ} (h : Covers W a n) (hb : a ≤ b) (hk : b + k ≤ a + n) :
    Covers W b k :=
  ⟨hk.trans h.1, fun w hw hw' => h.2 w (by omega) (by omega)⟩

theorem Covers.load {n : ℕ} {v : BitVec 64} (h : Covers W v.toNat n) :
    s.load (inside W) n v = some (readLE n s.mem v.toNat) :=
  Machine.load_eq (inside_range h.1 h.2)

theorem Covers.store {n : ℕ} {v : BitVec 64} (h : Covers W v.toNat n) (x : ℕ) :
    s.store (inside W) n v x = some { s with mem := writeLE n s.mem v.toNat x } :=
  Machine.store_eq (inside_range h.1 h.2) x

theorem Covers.push {x : BitVec 64} (h : Covers W (s.gpr .rsp - 8).toNat 8) :
    s.push (inside W) x = some { s with
      gpr := Function.update s.gpr .rsp (s.gpr .rsp - 8)
      mem := writeLE 8 s.mem (s.gpr .rsp - 8).toNat x.toNat } :=
  h.store (s := s.set .rsp (s.gpr .rsp - 8)) x.toNat

/-- What lies between `sbss` and `ebss` is cleared, in whole quadwords. -/
theorem clearBss_run (sbss ebss : BitVec 64) {n : ℕ} (hn : (ebss - sbss).toNat / 8 = n)
    (hstack : Covers W (s.gpr .rsp - 8).toNat 8) (hbss : Covers W sbss.toNat (8 * n))
    (htop : sbss.toNat + 8 * n < 2 ^ 64) :
    ∃ r, runOps (inside W) (clearBss sbss ebss) s = some { s with
        gpr := r
        direction := false
        mem := fill (writeLE 8 s.mem (s.gpr .rsp - 8).toNat (s.gpr .rax).toNat) sbss.toNat
          (sbss.toNat + 8 * n) 0 } ∧
      r .rsp = s.gpr .rsp - 8 := by
  have hpush := hstack.push (x := s.gpr .rax)
  obtain ⟨u, hu⟩ : ∃ u : Machine, u = { s with
    gpr := Function.update s.gpr .rsp (s.gpr .rsp - 8)
    mem := writeLE 8 s.mem (s.gpr .rsp - 8).toNat (s.gpr .rax).toNat } := ⟨_, rfl⟩
  obtain ⟨r, hregs, hrcx, hrdi, hrax, hrsp⟩ : ∃ r, runOps (inside W)
      [.reg .cld, .reg (.xor .rax .rax), .reg (.movImm .rcx ebss), .reg (.sub .rcx sbss),
        .reg (.shr .rcx 3), .reg (.movImm .rdi sbss)] u =
        some { u with gpr := r, direction := false } ∧
      r .rcx = (ebss - sbss) >>> 3 ∧ r .rdi = sbss ∧ r .rax = 0 ∧ r .rsp = u.gpr .rsp :=
    ⟨_, rfl, rfl, rfl, BitVec.xor_self, rfl⟩
  have hcount : (r .rcx).toNat = n := by
    rw [hrcx, BitVec.toNat_ushiftRight, Nat.shiftRight_eq_div_pow]
    exact hn
  have htop' : (r .rdi).toNat + 8 * n < 2 ^ 64 := by rwa [hrdi]
  have hbss' : Covers W (r .rdi).toNat (8 * n) := by rwa [hrdi]
  obtain ⟨g, hclear, hkeep⟩ := repStosq_clears (W := W) (n := n)
    (s := { u with gpr := r, direction := false }) rfl hrax htop' hbss'.2
  simp only [hrdi] at hclear
  refine ⟨g, ?_, ?_⟩
  · have hcode : clearBss sbss ebss = .push .rax ::
        ([.reg .cld, .reg (.xor .rax .rax), .reg (.movImm .rcx ebss), .reg (.sub .rcx sbss),
          .reg (.shr .rcx 3), .reg (.movImm .rdi sbss)] ++ [.repStosq]) := rfl
    have hexec : Op.exec (inside W) s (.push .rax) = some u := hpush.trans (congrArg some hu.symm)
    rw [hcode, runOps_cons, hexec, Option.bind_some, runOps_append, hregs, Option.bind_some,
      runOps_cons]
    show (Machine.repStosq (inside W) (r .rcx).toNat { u with gpr := r, direction := false }).bind
      (runOps (inside W) []) = _
    rw [hcount, hclear, Option.bind_some, runOps_nil, hu]
  · rw [hkeep .rsp (by decide) (by decide)]
    show r .rsp = _
    rw [hrsp, hu]
    rfl

/-- What `init_gdt` works on. -/
def segState (s : Machine) : SegState where
  mem := s.mem
  rax := s.gpr .rax
  gdtr := s.gdtr
  ds := s.seg .ds
  es := s.seg .es
  ss := s.seg .ss
  fs := s.seg .fs
  gs := s.seg .gs

/-- The segments of `main`. -/
def kernelSegments (seg : Seg → BitVec 16) : Seg → BitVec 16 :=
  [Seg.ds, .es, .ss, .fs, .gs].foldl (fun seg g => Function.update seg g 0x10) seg

section descriptors

variable {gdtr : ℕ} (hgdtr : Covers W gdtr 50)

include hgdtr

theorem patchTss_run (tss : BitVec 64) :
    ∃ r, runOps (inside W) (patchTss tss gdtr) s = some { s with
      gpr := r
      mem := (initGdt tss gdtr (segState s)).mem } ∧ r .rsp = s.gpr .rsp := by
  have hend := hgdtr.1
  have hbasel : (BitVec.ofNat 64 (basel gdtr)).toNat = gdtr + 36 :=
    Nat.mod_eq_of_lt (show gdtr + 36 < 2 ^ 64 by omega)
  have hbaseh : (BitVec.ofNat 64 (baseh gdtr)).toNat = gdtr + 38 :=
    Nat.mod_eq_of_lt (show gdtr + 38 < 2 ^ 64 by omega)
  have hbaseh3 : (BitVec.ofNat 64 (baseh gdtr + 3)).toNat = gdtr + 41 :=
    Nat.mod_eq_of_lt (show gdtr + 41 < 2 ^ 64 by omega)
  have hcov : ∀ {v : BitVec 64} {n a : ℕ}, v.toNat = gdtr + a → a + n ≤ 50 →
      Covers W v.toNat n := by
    intro v n a hv ha
    exact hgdtr.mono (by omega) (by omega)
  unfold patchTss
  simp only [runOps_cons, runOps_nil, Op.exec, RegOp.exec, Option.bind_some,
    (hcov hbasel (by omega)).store (n := 2), (hcov hbaseh (by omega)).store (n := 1),
    (hcov hbaseh3 (by omega)).store (n := 1), Machine.set]
  rw [hbasel, hbaseh, hbaseh3]
  exact ⟨_, rfl, rfl⟩

theorem loadGdt_run {base limit : ℕ} (hlimit : readLE 2 s.mem gdtr = limit)
    (hbase : readLE 8 s.mem (gdtr + 2) = base) :
    ∃ r, runOps (inside W) (loadGdt gdtr) s = some { s with gpr := r, gdtr := { base, limit } } ∧
      (r .rax).setWidth 16 = 0x10#16 ∧ r .rsp = s.gpr .rsp := by
  have hend := hgdtr.1
  have h0 : (BitVec.ofNat 64 gdtr).toNat = gdtr := Nat.mod_eq_of_lt (by omega)
  have h2 : (BitVec.ofNat 64 gdtr + 2).toNat = gdtr + 2 := by
    rw [BitVec.toNat_add, h0]
    simp
    omega
  have hload2 : s.load (inside W) 2 (BitVec.ofNat 64 gdtr) = some limit := by
    rw [(hgdtr.mono (by omega) (by omega)).load, h0, hlimit]
  have hload8 : s.load (inside W) 8 (BitVec.ofNat 64 gdtr + 2) = some base := by
    rw [(hgdtr.mono (by omega) (by omega)).load, h2, hbase]
  have hmask : (~~~0xFFFF#64).setWidth 16 = 0#16 := by decide
  have hsel : (0x10#16).setWidth 64 = 0x10#64 := by decide
  unfold loadGdt
  simp only [runOps_cons, runOps_nil, Op.exec, RegOp.exec, Machine.set, hload2, hload8,
    Option.bind_eq_bind, Option.bind_some, Option.pure_def]
  refine ⟨_, rfl, ?_, rfl⟩
  rw [Function.update_self, BitVec.setWidth_or, BitVec.setWidth_and]
  show ((s.gpr .rax).setWidth 16 &&& (~~~0xFFFF#64).setWidth 16 ||| _) = _
  rw [hmask, BitVec.and_zero, BitVec.zero_or]
  decide

theorem loadSegments_run (hgdt : AgreeOn s.mem (gdtSection gdtr fun _ => 0) gdtr 36) :
    ∃ r, runOps (inside W) (loadGdt gdtr ++ dataSegments) s = some { s with
        gpr := r
        gdtr := { base := gdtNull gdtr, limit := 39 }
        seg := kernelSegments s.seg } ∧ r .rsp = s.gpr .rsp := by
  have hend := hgdtr.1
  have htss : gdtTss gdtr = gdtr + 34 := rfl
  have hnull : gdtNull gdtr = gdtr + 10 := rfl
  have hgend : gdtEnd gdtr = gdtr + 50 := rfl
  have hlimit : readLE 2 s.mem gdtr = 39 := by
    refine (hgdt.readLE (o := 0) (by omega)).trans
      ((gdtSection_read gdtr _ (i := 0) (o := 0) rfl le_rfl rfl).trans ?_)
    omega
  have hbase : readLE 8 s.mem (gdtr + 2) = gdtNull gdtr := by
    refine (hgdt.readLE (by omega)).trans
      ((gdtSection_read gdtr _ (i := 1) (o := 0) rfl le_rfl rfl).trans ?_)
    omega
  have hdata : readLE 8 s.mem (gdtr + 26) = 0x0000920000000000 :=
    (hgdt.readLE (by omega)).trans (gdtSection_read gdtr _ (i := 4) (o := 0) rfl le_rfl rfl)
  obtain ⟨r, hload, hax, hrsp⟩ := loadGdt_run (s := s) hgdtr hlimit hbase
  obtain ⟨u, hu⟩ : ∃ u : Machine, u = { s with
    gpr := r
    gdtr := { base := gdtNull gdtr, limit := 39 } } := ⟨_, rfl⟩
  have hdesc : u.descriptor (inside W) 0x10 = some 0x0000920000000000 := by
    have haddr : (BitVec.ofNat 64 (gdtNull gdtr + 16)).toNat = gdtr + 26 :=
      Nat.mod_eq_of_lt (show gdtr + 26 < 2 ^ 64 by omega)
    unfold Machine.descriptor
    simp only [hu]
    rw [if_pos (by decide)]
    show (Machine.load (inside W) 8 (BitVec.ofNat 64 (gdtNull gdtr + 16)) _).map _ = _
    rw [(hgdtr.mono (by omega) (by omega)).load, haddr]
    exact congrArg (fun x => some (BitVec.ofNat 64 x)) hdata
  have hsegs := movSegs_run (s := u) (r := .rax) (by rw [hu]; exact hax) hdesc (by decide)
    [Seg.ds, .es, .ss, .fs, .gs]
  refine ⟨r, ?_, hrsp⟩
  unfold dataSegments
  rw [runOps_append, hload, Option.bind_some, ← hu, hsegs, hu]
  rfl

end descriptors

/-- The stores of `init_gdt` are behind the code and data descriptors. -/
theorem initGdt_head (tss : BitVec 64) {gdtr : ℕ} {σ : SegState}
    (hgdt : AgreeOn σ.mem (gdtSection gdtr fun _ => 0) gdtr 50) :
    AgreeOn (initGdt tss gdtr σ).mem (gdtSection gdtr fun _ => 0) gdtr 36 := by
  have htss : gdtTss gdtr = gdtr + 34 := rfl
  intro x hx hx'
  rw [initGdt_mem, writeLE_of_not_mem (by omega), writeLE_of_not_mem (by omega),
    writeLE_of_not_mem (by omega)]
  exact hgdt x hx (by omega)

theorem callMain_run (ret : BitVec 64) (hstack : Covers W (s.gpr .rsp).toNat 8) :
    ∃ r, runOps (inside W) (callMain ret) s = some { s with
        gpr := r
        mem := writeLE 8 s.mem (s.gpr .rsp).toNat ret.toNat } ∧
      r .rdi = BitVec.ofNat 64 (readLE 8 s.mem (s.gpr .rsp).toNat) ∧
      r .rbp = s.gpr .rsp + 8 ∧ r .rsp = s.gpr .rsp := by
  obtain ⟨u, hu⟩ : ∃ u : Machine, u = (((s.set .rsp (s.gpr .rsp + 8)).set .rdi
    (BitVec.ofNat 64 (readLE 8 s.mem (s.gpr .rsp).toNat))).set .rbp (s.gpr .rsp + 8)) := ⟨_, rfl⟩
  have hback : u.gpr .rsp - 8 = s.gpr .rsp := by
    rw [hu]
    exact BitVec.add_sub_cancel _ _
  have hpop : runOps (inside W) [.pop .rdi, .reg (.mov .rbp .rsp)] s = some u := by
    simp only [runOps_cons, runOps_nil, Op.exec, RegOp.exec, hstack.load, Option.bind_eq_bind,
      Option.bind_some, Option.pure_def, hu]
    rfl
  have hcall : Op.exec (inside W) u (.call ret) = some { u with
      gpr := Function.update u.gpr .rsp (u.gpr .rsp - 8)
      mem := writeLE 8 u.mem (u.gpr .rsp - 8).toNat ret.toNat } :=
    Covers.push (hback ▸ hstack)
  have hcode : callMain ret = [.pop .rdi, .reg (.mov .rbp .rsp)] ++ [.call ret] := rfl
  rw [hcode, runOps_append, hpop, Option.bind_some, runOps_cons, hcall, Option.bind_some,
    runOps_nil, hback]
  exact ⟨_, by rw [hu]; rfl, rfl, rfl, Function.update_self ..⟩

theorem enterMain_run (tss ret : BitVec 64) {gdtr : ℕ} (hgdtr : Covers W gdtr 50)
    (hgdt : AgreeOn s.mem (gdtSection gdtr fun _ => 0) gdtr 50)
    (hstack : Covers W (s.gpr .rsp).toNat 8) (hbelow : gdtr + 50 ≤ (s.gpr .rsp).toNat) :
    ∃ r, runOps (inside W) (enterMain tss gdtr ret) s = some { s with
        gpr := r
        mem := writeLE 8 (initGdt tss gdtr (segState s)).mem (s.gpr .rsp).toNat ret.toNat
        gdtr := { base := gdtNull gdtr, limit := 39 }
        seg := kernelSegments s.seg } ∧
      r .rdi = BitVec.ofNat 64 (readLE 8 s.mem (s.gpr .rsp).toNat) ∧
      r .rbp = s.gpr .rsp + 8 ∧ r .rsp = s.gpr .rsp := by
  have htss : gdtTss gdtr = gdtr + 34 := rfl
  have hhead := initGdt_head tss (σ := segState s) hgdt
  have hsame : readLE 8 (initGdt tss gdtr (segState s)).mem (s.gpr .rsp).toNat =
      readLE 8 s.mem (s.gpr .rsp).toNat :=
    initGdt_other tss gdtr (segState s) (by omega)
  obtain ⟨r₁, hpatch, hrsp₁⟩ := patchTss_run (s := s) hgdtr tss
  obtain ⟨r₂, hsegs, hrsp₂⟩ := loadSegments_run (s := { s with
    gpr := r₁
    mem := (initGdt tss gdtr (segState s)).mem }) hgdtr hhead
  have hrsp : r₂ .rsp = s.gpr .rsp := hrsp₂.trans hrsp₁
  obtain ⟨r, hcall, hrdi, hrbp, hrsp'⟩ := callMain_run ret (s := { s with
    gpr := r₂
    mem := (initGdt tss gdtr (segState s)).mem
    gdtr := { base := gdtNull gdtr, limit := 39 }
    seg := kernelSegments s.seg }) (W := W) (by
      show Covers W (r₂ .rsp).toNat 8
      rwa [hrsp])
  simp only [hrsp, hsame] at hcall hrdi hrbp hrsp'
  refine ⟨r, ?_, hrdi, hrbp, hrsp'⟩
  unfold enterMain
  rw [runOps_append, hpatch, Option.bind_some, ← List.append_assoc, runOps_append, hsegs,
    Option.bind_some]
  exact hcall

end flat

/-! ### `init_sse` -/

/-- `cr0` with `MP` and without `EM`. -/
def sseCr0 (cr0 : BitVec 64) : BitVec 64 :=
  (cr0.setWidth 32 &&& 0xFFFFFFFB).setWidth 64 ||| 0x02

/-- And `cr4` with `OSFXSR` and `OSXMMEXCPT`. -/
def sseCr (cr : Cr → BitVec 64) : Cr → BitVec 64 :=
  Function.update (Function.update cr .cr0 (sseCr0 (cr .cr0))) .cr4 (cr .cr4 ||| 3#64 <<< 9)

theorem sseCr0_bit (x : BitVec 64) {i : ℕ} (hi : i < 32) :
    (sseCr0 x).getLsbD i = (x.getLsbD i && i != 2 || i == 1) := by
  have h : ∀ i < 32, (0xFFFFFFFB : BitVec 32).getLsbD i = (i != 2) ∧
      (0x02 : BitVec 64).getLsbD i = (i == 1) := by
    decide
  unfold sseCr0
  rw [BitVec.getLsbD_or, BitVec.getLsbD_setWidth, BitVec.getLsbD_and, BitVec.getLsbD_setWidth,
    (h i hi).1, (h i hi).2]
  simp [hi, show i < 64 by omega]

theorem sseCr_sse (cr : Cr → BitVec 64) :
    (sseCr cr .cr0).getLsbD 2 = false ∧ (sseCr cr .cr0).getLsbD 1 = true ∧
      (sseCr cr .cr4).getLsbD 9 = true ∧ (sseCr cr .cr4).getLsbD 10 = true := by
  have hcr0 : sseCr cr .cr0 = sseCr0 (cr .cr0) := rfl
  have hcr4 : sseCr cr .cr4 = cr .cr4 ||| 3#64 <<< 9 := rfl
  have h9 : (3#64 <<< 9).getLsbD 9 = true ∧ (3#64 <<< 9).getLsbD 10 = true := by decide
  rw [hcr0, hcr4, sseCr0_bit _ (by decide), sseCr0_bit _ (by decide), BitVec.getLsbD_or,
    BitVec.getLsbD_or, h9.1, h9.2]
  simp

theorem sseCr_paging (cr : Cr → BitVec 64) : paging (sseCr cr) = paging cr := by
  have hcr0 : paging (sseCr cr) = (sseCr0 (cr .cr0)).getLsbD 31 := rfl
  rw [hcr0, sseCr0_bit _ (by decide)]
  simp [paging]

theorem initSse_run (bus : Bus) {s : Machine} (hpae : (s.cr .cr4).getLsbD 5 = true)
    (hlme : s.efer.getLsbD 8 = true) :
    ∃ r, runOps bus initSse s = some { s with gpr := r, cr := sseCr s.cr } ∧
      r .rsp = s.gpr .rsp := by
  obtain ⟨u, hu⟩ : ∃ u : Machine, u = { s with
    gpr := Function.update (Function.update (Function.update s.gpr .rax (s.cr .cr0)) .rax
      (((s.cr .cr0).setWidth 32 &&& 0xFFFFFFFB).setWidth 64)) .rax (sseCr0 (s.cr .cr0))
    cr := Function.update s.cr .cr0 (sseCr0 (s.cr .cr0)) } := ⟨_, rfl⟩
  have hcr0 : runOps bus [.reg (.fromCr .rax .cr0), .reg (.and32 .rax 0xFFFFFFFB),
      .reg (.or .rax 0x02), .toCr .cr0 .rax] s = some u := by
    have hadm : ∀ v, admissible (Function.update s.cr .cr0 v) s.efer = true := by
      intro v
      unfold admissible
      rw [Function.update_of_ne (by decide), hpae, hlme]
      simp
    simp only [runOps_cons, runOps_nil, Op.exec, RegOp.exec, Machine.set, Option.bind_some,
      Function.update_self, hadm, if_true, hu, sseCr0]
  have hcr4 : ∃ r, runOps bus [.reg (.fromCr .rax .cr4), .reg (.or .rax (3#64 <<< 9)),
      .toCr .cr4 .rax] u = some { u with
        gpr := r
        cr := Function.update u.cr .cr4 (u.cr .cr4 ||| 3#64 <<< 9) } ∧ r .rsp = u.gpr .rsp := by
    have hpae' : (u.cr .cr4).getLsbD 5 = true := by
      rw [hu]
      exact hpae
    have hlme' : u.efer.getLsbD 8 = true := by rwa [hu]
    have hadm : admissible (Function.update u.cr .cr4 (u.cr .cr4 ||| 3#64 <<< 9)) u.efer =
        true := by
      unfold admissible
      rw [Function.update_self, BitVec.getLsbD_or, hpae', hlme']
      simp
    simp only [runOps_cons, runOps_nil, Op.exec, RegOp.exec, Machine.set, Option.bind_some,
      Function.update_self, hadm, if_true]
    exact ⟨_, rfl, rfl⟩
  have hcode : initSse = [.reg (.fromCr .rax .cr0), .reg (.and32 .rax 0xFFFFFFFB),
      .reg (.or .rax 0x02), .toCr .cr0 .rax] ++ [.reg (.fromCr .rax .cr4),
      .reg (.or .rax (3#64 <<< 9)), .toCr .cr4 .rax] := rfl
  obtain ⟨r, hr, hrsp⟩ := hcr4
  refine ⟨r, ?_, ?_⟩
  · rw [hcode, runOps_append, hcr0, Option.bind_some, hr, hu]
    rfl
  · rw [hrsp, hu]
    rfl

/-! ### The whole of `_start` -/

/-- What the linker script makes of the kernel: the image from `kernelBase` on within two megabytes,
the descriptors of `init.asm` below `.bss`, which has whole pages, as the stack has. -/
structure Linked (h : KernelHeader) (gdtr : ℕ) : Prop where
  stext_eq : h.stext.toNat = kernelBase
  gdtr_ge : kernelBase ≤ gdtr
  gdtr_below : gdtr + 50 ≤ h.sbss.toNat
  bss_le : h.sbss.toNat ≤ h.ebss.toNat
  sbss_aligned : 4096 ∣ h.sbss.toNat
  ebss_aligned : 4096 ∣ h.ebss.toNat
  ebss_le : h.ebss.toNat ≤ kernelBase + 0x200000
  stack_aligned : 4096 ∣ h.stack_size.toNat
  stack_pos : 0 < h.stack_size.toNat

/-- Where `_start` and its call of `main` push. -/
def startFrame : BitVec 64 := 0xFFFFFFFFFFFFFFE8

section linked

variable {h : KernelHeader} {gdtr : ℕ} (L : Linked h gdtr)

include L

theorem Linked.imageSize_eq : (imageSize h).toNat = h.ebss.toNat - kernelBase := by
  have h1 := L.stext_eq
  have h2 := L.gdtr_ge
  have h3 := L.gdtr_below
  have h4 := L.bss_le
  have h5 := h.ebss.isLt
  unfold imageSize
  rw [BitVec.toNat_sub]
  omega

theorem Linked.space {v : BitVec 64} (hlo : kernelBase ≤ v.toNat) (hhi : v.toNat < h.ebss.toNat) :
    KernelSpace h v := by
  have h1 := L.imageSize_eq
  have h2 : (imageSize h).toNat ≤ roundUp 4096 (imageSize h).toNat := le_roundUp (by norm_num) _
  exact Or.inl ⟨hlo, by omega⟩

theorem Linked.covers {a n : ℕ} (ha : kernelBase ≤ a) (hn : a + n ≤ h.ebss.toNat) :
    Covers (KernelSpace h) a n := by
  have h1 := h.ebss.isLt
  exact ⟨by omega, fun w hw hw' => L.space (by omega) (by omega)⟩

theorem Linked.covers_frame : Covers (KernelSpace h) startFrame.toNat 8 := by
  have h1 := L.stack_aligned
  have h2 := L.stack_pos
  have hframe : startFrame.toNat = 2 ^ 64 - 24 := rfl
  refine ⟨by omega, ?_⟩
  intro w hw _
  have hw64 : 2 ^ 64 ≤ w.toNat + h.stack_size.toNat := by omega
  exact Or.inr hw64

theorem Linked.below_frame : h.ebss.toNat ≤ startFrame.toNat := by
  have htop : kernelBase + 0x200000 ≤ startFrame.toNat := by decide
  exact L.ebss_le.trans htop

/-- The flat memory with `x` pushed and `.bss` cleared. -/
def clearedMem (h : KernelHeader) (V : Mem) (x : ℕ) : Mem :=
  fill (writeLE 8 V startFrame.toNat x) h.sbss.toNat h.ebss.toNat 0

theorem clearedMem_below {V : Mem} {x y : ℕ} (hy : y < h.sbss.toNat) :
    clearedMem h V x y = V y := by
  have h1 := L.bss_le
  have h2 := L.below_frame
  unfold clearedMem
  rw [fill, if_neg (by omega), writeLE_of_not_mem (by omega)]

omit L in
theorem clearedMem_bss {V : Mem} {x y : ℕ} (hlo : h.sbss.toNat ≤ y) (hhi : y < h.ebss.toNat) :
    clearedMem h V x y = 0 := if_pos ⟨hlo, hhi⟩

theorem clearedMem_gdt {V : Mem} (x : ℕ) (hgdt : AgreeOn V (gdtSection gdtr fun _ => 0) gdtr 50) :
    AgreeOn (clearedMem h V x) (gdtSection gdtr fun _ => 0) gdtr 50 := by
  have h1 := L.gdtr_below
  intro y hy hy'
  rw [clearedMem_below L (by omega), hgdt y hy hy']

theorem clearedMem_frame (V : Mem) (x : BitVec 64) :
    readLE 8 (clearedMem h V x.toNat) startFrame.toNat = x.toNat := by
  have hx := x.isLt
  have h1 := L.below_frame
  have hsame : readLE 8 (clearedMem h V x.toNat) startFrame.toNat =
      readLE 8 (writeLE 8 V startFrame.toNat x.toNat) startFrame.toNat := by
    apply readLE_congr
    intro y hy _
    unfold clearedMem
    rw [fill, if_neg (by omega)]
  rw [hsame, readLE_writeLE, Nat.mod_eq_of_lt (by omega)]

theorem clearBss_linked {s : Machine} (hrsp : s.gpr .rsp - 8 = startFrame) :
    ∃ r, runOps (inside (KernelSpace h)) (clearBss h.sbss h.ebss) s = some { s with
        gpr := r
        direction := false
        mem := clearedMem h s.mem (s.gpr .rax).toNat } ∧
      r .rsp = startFrame := by
  have h1 := L.gdtr_ge
  have h2 := L.gdtr_below
  have h3 := L.bss_le
  have h4 := L.sbss_aligned
  have h5 := L.ebss_aligned
  have hlt := h.ebss.isLt
  have hsize : h.sbss.toNat + 8 * ((h.ebss - h.sbss).toNat / 8) = h.ebss.toNat := by
    rw [BitVec.toNat_sub]
    omega
  have hclear := clearBss_run (W := KernelSpace h) (s := s) h.sbss h.ebss rfl
    (hrsp ▸ L.covers_frame) (L.covers (by omega) (by omega)) (by omega)
  rw [hsize, hrsp] at hclear
  exact hclear

theorem enterMain_linked (tss ret : BitVec 64) {s : Machine} (hrsp : s.gpr .rsp = startFrame)
    (hgdt : AgreeOn s.mem (gdtSection gdtr fun _ => 0) gdtr 50) :
    ∃ r, runOps (inside (KernelSpace h)) (enterMain tss gdtr ret) s = some { s with
        gpr := r
        mem := writeLE 8 (initGdt tss gdtr (segState s)).mem startFrame.toNat ret.toNat
        gdtr := { base := gdtNull gdtr, limit := 39 }
        seg := kernelSegments s.seg } ∧
      r .rdi = BitVec.ofNat 64 (readLE 8 s.mem startFrame.toNat) ∧ r .rsp = startFrame := by
  have h1 := L.gdtr_below
  have h2 := L.bss_le
  have h3 := L.below_frame
  obtain ⟨r, hrun, hrdi, -, hrsp'⟩ := enterMain_run tss ret (W := KernelSpace h) (s := s)
    (L.covers L.gdtr_ge (by omega)) hgdt (hrsp ▸ L.covers_frame) (by rw [hrsp]; omega)
  rw [hrsp] at hrun hrdi hrsp'
  exact ⟨r, hrun, hrdi, hrsp'⟩

/-- `_start` up to the call, behind the tables of the loader. -/
theorem start_run {lay : Layout} (R : Regular h lay) {s : Machine} (hpg : paging s.cr = true)
    (hcr3 : s.cr .cr3 = lay.page_tab.setWidth 64) (hpae : (s.cr .cr4).getLsbD 5 = true)
    (hlme : s.efer.getLsbD 8 = true) (hrsp : s.gpr .rsp - 8 = startFrame) (T : TablesAt h lay s.mem)
    (hgdt : AgreeOn (view (kernelPlace h lay) s.mem) (gdtSection gdtr fun _ => 0) gdtr 50)
    (tss ret : BitVec 64) :
    ∃ r m σ, runOps mmu (start h tss gdtr ret) s = some { s with
        gpr := r
        cr := sseCr s.cr
        seg := kernelSegments s.seg
        gdtr := { base := gdtNull gdtr, limit := 39 }
        direction := false
        mem := m } ∧
      Behind (KernelSpace h) (kernelPlace h lay) (TablesAt h lay) s.mem
        (writeLE 8 (initGdt tss gdtr σ).mem startFrame.toNat ret.toNat) m ∧
      σ.mem = clearedMem h (view (kernelPlace h lay) s.mem) (s.gpr .rax).toNat ∧
      r .rdi = s.gpr .rax ∧ r .rsp = startFrame := by
  have w := kernelWindow R L.stack_aligned hpg hcr3
  have w' : Window (KernelSpace h) (kernelPlace h lay) (TablesAt h lay) (sseCr s.cr) :=
    kernelWindow R L.stack_aligned ((sseCr_paging _).trans hpg) hcr3
  obtain ⟨V, hV⟩ : ∃ V, V = view (kernelPlace h lay) s.mem := ⟨_, rfl⟩
  rw [← hV] at hgdt ⊢
  have b : Behind (KernelSpace h) (kernelPlace h lay) (TablesAt h lay) s.mem V s.mem :=
    hV ▸ Behind.start T
  obtain ⟨r₁, hclear, hrsp₁⟩ := clearBss_linked L (s := { s with mem := V }) hrsp
  have hsteady₁ : (clearBss h.sbss h.ebss).all Op.steady = true := rfl
  obtain ⟨m₁, hm₁, b₁, -⟩ := Behind.run (s := { s with mem := V }) w hsteady₁ b rfl hclear
  obtain ⟨r₂, hsse, hrsp₂⟩ := initSse_run mmu (s := { s with
    gpr := r₁
    direction := false
    mem := m₁ }) hpae hlme
  obtain ⟨σ, hσ⟩ : ∃ σ, σ = segState { s with
    gpr := r₂
    cr := sseCr s.cr
    direction := false
    mem := clearedMem h V (s.gpr .rax).toNat } := ⟨_, rfl⟩
  obtain ⟨r₃, henter, hrdi, hrsp₃⟩ := enterMain_linked L tss ret (s := { s with
    gpr := r₂
    cr := sseCr s.cr
    direction := false
    mem := clearedMem h V (s.gpr .rax).toNat }) (hrsp₂.trans hrsp₁) (clearedMem_gdt L _ hgdt)
  simp only [← hσ] at henter
  have hsteady₂ : (enterMain tss gdtr ret).all Op.steady = true := rfl
  obtain ⟨m₂, hm₂, b₂, -⟩ := Behind.run (s := { s with
    gpr := r₂
    cr := sseCr s.cr
    direction := false
    mem := clearedMem h V (s.gpr .rax).toNat }) w' hsteady₂ b₁ rfl henter
  refine ⟨r₃, m₂, σ, ?_, b₂, ?_, ?_, hrsp₃⟩
  · have hfirst : runOps mmu (clearBss h.sbss h.ebss) s = some { s with
        gpr := r₁
        direction := false
        mem := m₁ } := hm₁
    unfold start
    rw [runOps_append, hfirst, Option.bind_some, runOps_append, hsse, Option.bind_some]
    exact hm₂
  · rw [hσ]
    rfl
  · rw [hrdi, clearedMem_frame L, BitVec.ofNat_toNat, BitVec.setWidth_eq]

end linked

end Ziemniak.Kernel
