import Mathlib.Tactic.IntervalCases
import Ziemniak.BareMetal.Cpu
import Ziemniak.BareMetal.InlineAsm
import Ziemniak.BareMetal.Ports

/-! # Loading `CR3`

The assembly helpers of `asm.h` and `mm_set_cr3`, which uses the last of them.

`outb`, `inb` and `invlpg` do what they are called for, whatever the compiler has left in the
registers.  `set_cr3` has its value as an output operand, `"=r"(val)`, so that the value which
`mm_set_cr3` computes is not loaded: `setsCr3_iff`. -/

namespace Ziemniak.Kernel

open BareMetal

/-! ### The helpers -/

/-- The general registers. -/
abbrev Regs := Gpr → BitVec 64

section helpers

variable {δ : Type} (dev : Device δ)

/-- The operands `"a"(val)` and `"Nd"(port)`. -/
def outOperands (port : BitVec 16) (val : BitVec 8) : List (Operand Gpr (BitVec 64)) :=
  [⟨.input, .rax, val.setWidth 64⟩, ⟨.input, .rdx, port.setWidth 64⟩]

/-- `asm volatile ("outb %0, %1" : : "a"(val), "Nd"(port))` -/
def outb (port : BitVec 16) (val : BitVec 8) (s : Regs × δ) : Regs × δ :=
  asm (fun s => (s.1, dev.outb ((s.1 .rdx).setWidth 16) ((s.1 .rax).setWidth 8) s.2))
    (outOperands port val) s

/-- The operands `"=a"(ret)` and `"Nd"(port)`, for a `ret` that held `old`. -/
def inOperands (port : BitVec 16) (old : BitVec 8) : List (Operand Gpr (BitVec 64)) :=
  [⟨.output, .rax, old.setWidth 64⟩, ⟨.input, .rdx, port.setWidth 64⟩]

/-- `asm volatile ("inb %1, %0" : "=a"(ret) : "Nd"(port))` -/
def inb (port : BitVec 16) (old : BitVec 8) (s : Regs × δ) : BitVec 8 × (Regs × δ) :=
  let s := asm (fun s =>
      let r := dev.inb ((s.1 .rdx).setWidth 16) s.2
      (Function.update s.1 .rax (s.1 .rax &&& ~~~ 0xFF ||| r.1.setWidth 64), r.2))
    (inOperands port old) s
  ((s.1 .rax).setWidth 8, s)

/-- `asm volatile ("invlpg (%0)" : : "b"(mem) : "memory")`; the addresses invalidated so far. -/
def invlpg (mem : BitVec 64) (s : Regs × List (BitVec 64)) : Regs × List (BitVec 64) :=
  asm (fun s => (s.1, s.2 ++ [s.1 .rbx])) [⟨.input, .rbx, mem⟩] s

/-- `asm volatile ("mov %0, %%cr3" : "=r"(val))`, with the operand in `r`. -/
def setCr3 (r : Gpr) (val : BitVec 64) (s : Regs × (Cr → BitVec 64)) : Regs × (Cr → BitVec 64) :=
  asm (fun s => (s.1, Function.update s.2 .cr3 (s.1 r))) [⟨.output, r, val⟩] s

theorem outb_state (port : BitVec 16) (val : BitVec 8) (s : Regs × δ) :
    (outb dev port val s).2 = dev.outb port val s.2 := by
  have hregs : ((outOperands port val).map Operand.reg).Nodup := by
    show [Gpr.rax, Gpr.rdx].Nodup
    decide
  have hval : load (outOperands port val) s.1 .rax = val.setWidth 64 :=
    load_input hregs (o := ⟨.input, .rax, val.setWidth 64⟩) (List.mem_cons_self ..) rfl s.1
  have hport : load (outOperands port val) s.1 .rdx = port.setWidth 64 :=
    load_input hregs (o := ⟨.input, .rdx, port.setWidth 64⟩)
      (List.mem_cons_of_mem _ (List.mem_cons_self ..)) rfl s.1
  show dev.outb ((load (outOperands port val) s.1 .rdx).setWidth 16)
    ((load (outOperands port val) s.1 .rax).setWidth 8) s.2 = dev.outb port val s.2
  rw [hval, hport, BitVec.setWidth_setWidth_of_le _ (by norm_num),
    BitVec.setWidth_setWidth_of_le _ (by norm_num), BitVec.setWidth_eq, BitVec.setWidth_eq]

theorem inb_result (port : BitVec 16) (old : BitVec 8) (s : Regs × δ) :
    (inb dev port old s).1 = (dev.inb port s.2).1 ∧
      (inb dev port old s).2.2 = (dev.inb port s.2).2 := by
  have hregs : ((inOperands port old).map Operand.reg).Nodup := by
    show [Gpr.rax, Gpr.rdx].Nodup
    decide
  have hport : load (inOperands port old) s.1 .rdx = port.setWidth 64 :=
    load_input hregs (o := ⟨.input, .rdx, port.setWidth 64⟩)
      (List.mem_cons_of_mem _ (List.mem_cons_self ..)) rfl s.1
  have hdx : (load (inOperands port old) s.1 .rdx).setWidth 16 = port := by
    rw [hport, BitVec.setWidth_setWidth_of_le _ (by norm_num), BitVec.setWidth_eq]
  unfold inb asm
  simp only [hdx, Function.update_self]
  refine ⟨?_, trivial⟩
  rw [BitVec.setWidth_or, BitVec.setWidth_and, BitVec.setWidth_setWidth_of_le _ (by norm_num),
    BitVec.setWidth_eq]
  simp

theorem invlpg_state (mem : BitVec 64) (s : Regs × List (BitVec 64)) :
    (invlpg mem s).2 = s.2 ++ [mem] := by
  have hregs : ([(⟨.input, .rbx, mem⟩ : Operand Gpr (BitVec 64))].map Operand.reg).Nodup :=
    List.nodup_singleton _
  have hmem : load [⟨.input, .rbx, mem⟩] s.1 .rbx = mem :=
    load_input hregs (List.mem_singleton_self _) rfl s.1
  show s.2 ++ [load [⟨.input, .rbx, mem⟩] s.1 .rbx] = s.2 ++ [mem]
  rw [hmem]

/-- What `CR3` is loaded with does not depend on the value at all. -/
theorem setCr3_state (r : Gpr) (val : BitVec 64) (s : Regs × (Cr → BitVec 64)) :
    (setCr3 r val s).2 = Function.update s.2 .cr3 (s.1 r) := by
  have hreg : load [⟨.output, r, val⟩] s.1 r = s.1 r :=
    load_of_not_input (by simp) s.1
  show Function.update s.2 .cr3 (load [⟨.output, r, val⟩] s.1 r) = _
  rw [hreg]

end helpers

/-! ### `mm_set_cr3` -/

def CR3_FLAG_MASK : BitVec 64 := 3 <<< 3
def CR3_ADDR_MASK : BitVec 64 := 0x000FFFFFFFFFF000
def PCD : BitVec 64 := 1 <<< 4
def PWT : BitVec 64 := 1 <<< 3

/-- The variable `temp`. -/
def cr3Value (pml4 flags : BitVec 64) : BitVec 64 :=
  let temp := pml4 &&& CR3_ADDR_MASK
  temp ^^^ (flags &&& CR3_FLAG_MASK)

def mmSetCr3 (r : Gpr) (pml4 flags : BitVec 64) (s : Regs × (Cr → BitVec 64)) :
    Regs × (Cr → BitVec 64) :=
  setCr3 r (cr3Value pml4 flags) s

/-- The address of the table with the two flags. -/
def wantedCr3 (pml4 flags : BitVec 64) : BitVec 64 :=
  pml4 &&& 0x000FFFFFFFFFF000 ||| flags &&& (PWT ||| PCD)

theorem wantedCr3_bit (pml4 flags : BitVec 64) (i : ℕ) : (wantedCr3 pml4 flags).getLsbD i =
    (decide (12 ≤ i ∧ i ≤ 51) && pml4.getLsbD i || decide (i = 3 ∨ i = 4) && flags.getLsbD i) := by
  have haddr : (0x000FFFFFFFFFF000 : BitVec 64).getLsbD i = decide (12 ≤ i ∧ i ≤ 51) := by
    by_cases hi : i < 64
    · interval_cases i <;> decide
    · rw [BitVec.getLsbD_of_ge _ _ (by omega), eq_comm, decide_eq_false_iff_not]
      omega
  have hflags : (PWT ||| PCD).getLsbD i = decide (i = 3 ∨ i = 4) := by
    by_cases hi : i < 64
    · interval_cases i <;> decide
    · rw [BitVec.getLsbD_of_ge _ _ (by omega), eq_comm, decide_eq_false_iff_not]
      omega
  unfold wantedCr3
  rw [BitVec.getLsbD_or, BitVec.getLsbD_and, BitVec.getLsbD_and, haddr, hflags,
    Bool.and_comm (pml4.getLsbD i), Bool.and_comm (flags.getLsbD i)]

/-- The value is computed right: the two masks have no bit in common. -/
theorem cr3Value_eq (pml4 flags : BitVec 64) : cr3Value pml4 flags = wantedCr3 pml4 flags := by
  have hdisjoint : CR3_ADDR_MASK &&& CR3_FLAG_MASK = 0#64 := by decide
  have hflags : PWT ||| PCD = CR3_FLAG_MASK := by decide
  unfold wantedCr3
  rw [hflags]
  show (pml4 &&& CR3_ADDR_MASK) ^^^ (flags &&& CR3_FLAG_MASK) =
    pml4 &&& CR3_ADDR_MASK ||| flags &&& CR3_FLAG_MASK
  apply BitVec.eq_of_getLsbD_eq
  intro i hi
  have hbit : (CR3_ADDR_MASK.getLsbD i && CR3_FLAG_MASK.getLsbD i) = false := by
    rw [← BitVec.getLsbD_and, hdisjoint, BitVec.getLsbD_zero]
  simp only [BitVec.getLsbD_xor, BitVec.getLsbD_or, BitVec.getLsbD_and]
  cases haddr : CR3_ADDR_MASK.getLsbD i with
  | false => simp
  | true =>
      have hflag : CR3_FLAG_MASK.getLsbD i = false := by
        rw [haddr, Bool.true_and] at hbit
        exact hbit
      simp [hflag]

/-- The register holds the table and the two flags, which is what the function has computed. -/
def SetsCr3 (r : Gpr) (pml4 flags : BitVec 64) (s : Regs × (Cr → BitVec 64)) : Prop :=
  (mmSetCr3 r pml4 flags s).2 .cr3 = wantedCr3 pml4 flags ∧
    (mmSetCr3 r pml4 flags s).2 .cr3 = cr3Value pml4 flags

/-- Runs that differ only in the general registers agree. -/
def Cr3Agrees (r : Gpr) (pml4 flags : BitVec 64) : Prop :=
  ∀ (regs regs' : Regs) (cr : Cr → BitVec 64),
    (mmSetCr3 r pml4 flags (regs, cr)).2 = (mmSetCr3 r pml4 flags (regs', cr)).2

/-- What is loaded is what the register of the operand happens to hold. -/
theorem mmSetCr3_cr3 (r : Gpr) (pml4 flags : BitVec 64) (s : Regs × (Cr → BitVec 64)) :
    (mmSetCr3 r pml4 flags s).2 .cr3 = s.1 r := by
  unfold mmSetCr3
  rw [setCr3_state, Function.update_self]

/-- **When the right value is loaded**, for any register the operand may be given: when it is
there already.  Two runs never agree for all that may be in it. -/
theorem setsCr3_iff (r : Gpr) (pml4 flags : BitVec 64) :
    (∀ s, SetsCr3 r pml4 flags s ↔ s.1 r = wantedCr3 pml4 flags) ∧ ¬ Cr3Agrees r pml4 flags := by
  constructor
  · intro s
    unfold SetsCr3
    rw [mmSetCr3_cr3, cr3Value_eq, and_self]
  · intro hagree
    have hcr := congrFun (hagree (fun _ => 0) (fun _ => 1) (fun _ => 0)) .cr3
    rw [mmSetCr3_cr3, mmSetCr3_cr3] at hcr
    have hval : (0 : BitVec 64) = 1 := hcr
    exact absurd hval (by decide)

theorem cr3_stale : (mmSetCr3 .rax 0x1000 0 (fun _ => 0, fun _ => 0)).2 .cr3 = 0 ∧
    cr3Value 0x1000 0 = 0x1000 ∧ ¬ SetsCr3 .rax 0x1000 0 (fun _ => 0, fun _ => 0) := by
  unfold SetsCr3
  decide

end Ziemniak.Kernel
