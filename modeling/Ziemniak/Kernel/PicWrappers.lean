import Ziemniak.BareMetal.Handler

/-! # Hardware interrupts

The wrappers of `wrapper_pic.asm` save `rax` only, around a call of a compiled function that may
change eight more registers.  `transparent_iff`: the interrupted code gets its registers back
exactly when the function happens to leave those eight alone (`emptyIsr_transparent`: the empty
functions of `interrupts.c` do). -/

namespace Ziemniak.Kernel

open BareMetal

/-! ### The wrappers -/

/-- The macro `isr_wrap` up to its `iretq`; `ret` is the address after its `call`. -/
def isrWrap (ret : BitVec 64) : List HandlerInstr :=
  [.push .rax, .call ret, .movAl 0x20, .out 0x20, .pop .rax]

/-- The macro `isr_wrap_h`, for the second controller. -/
def isrWrapH (ret : BitVec 64) : List HandlerInstr :=
  [.push .rax, .call ret, .movAl 0x20, .out 0xA0, .out 0x20, .pop .rax]

/-- `isr_wrapper_pic_n`. -/
def isrWrapperPic (n : Fin 16) : BitVec 64 → List HandlerInstr :=
  if n.val < 8 then isrWrap else isrWrapH

/-- The interrupt `n` at `rip`, up to the last instruction before the `iretq`. -/
def picHandled (n : Fin 16) (isr : Cpu → Cpu) (c : Cpu) (rip sp ret : BitVec 64) :
    Cpu × List PortEvent :=
  runHandler isr (isrWrapperPic n ret) (deliverInt c rip sp, [])

/-- The instruction pointer and the processor behind the interrupt. -/
def picInterrupt (n : Fin 16) (isr : Cpu → Cpu) (c : Cpu) (rip sp ret : BitVec 64) :
    BitVec 64 × Cpu :=
  (picHandled n isr c rip sp ret).1.iretq

/-- The state at the first instruction of `isr_n`. -/
def isrEntry (c : Cpu) (rip sp ret : BitVec 64) : Cpu :=
  ((deliverInt c rip sp).push (c.gpr .rax)).push ret

/-- The interrupted code goes on with the registers it had. -/
def Transparent (n : Fin 16) (isr : Cpu → Cpu) (c : Cpu) (rip sp ret : BitVec 64) : Prop :=
  (picInterrupt n isr c rip sp ret).1 = rip ∧
    ∀ r, (picInterrupt n isr c rip sp ret).2.gpr r = c.gpr r

/-! ### What the function finds and leaves -/

section handled

variable (n : Fin 16) (isr : Cpu → Cpu) (c : Cpu) (rip sp ret : BitVec 64)

/-- The words on the stack of the wrapper. -/
def wrapperFrame : List (BitVec 64) := c.gpr .rax :: intFrame c rip

theorem isrEntry_entered : Entered (isrEntry c rip sp ret) ret (wrapperFrame c rip) := by
  have hframe := deliverInt_holds c rip sp
  have hrsp := deliverInt_rsp c rip sp
  have hpush := (hframe.push (by simp [intFrame]) (c.gpr .rax)).push (by simp [intFrame]) ret
  refine ⟨hpush, ?_⟩
  unfold isrEntry
  rw [Cpu.push_rsp, Cpu.push_rsp, BitVec.sub_add_cancel]
  generalize (deliverInt c rip sp).gpr .rsp = p at hrsp ⊢
  bv_omega

theorem isrEntry_gpr {q : Gpr} (hq : q ≠ .rsp) :
    (isrEntry c rip sp ret).gpr q = c.gpr q := by
  unfold isrEntry
  rw [Cpu.push_ne _ _ hq, Cpu.push_ne _ _ hq, deliverInt_gpr _ _ _ hq]

/-- Behind the function the wrapper writes its end-of-interrupt commands, to both controllers for
the second one, and pops `rax` again. -/
theorem picHandled_eq : picHandled n isr c rip sp ret =
    (((isr (isrEntry c rip sp ret)).movAl 0x20).pop .rax,
      if n.val < 8 then [.outb 0x20 0x20] else [.outb 0xA0 0x20, .outb 0x20 0x20]) := by
  have hrax : (deliverInt c rip sp).gpr .rax = c.gpr .rax := deliverInt_gpr c rip sp (by decide)
  unfold picHandled isrWrapperPic isrEntry runHandler
  split_ifs
  · simp only [isrWrap, List.foldl_cons, List.foldl_nil, HandlerInstr.exec, hrax, Cpu.movAl_al]
    rfl
  · simp only [isrWrapH, List.foldl_cons, List.foldl_nil, HandlerInstr.exec, hrax, Cpu.movAl_al]
    rfl

variable {isr}

/-- **The registers behind the interrupt** are those the function leaves, but for `rax` and
`rsp`. -/
theorem picInterrupt_gpr (hisr : SysV 6 isr) : (picInterrupt n isr c rip sp ret).1 = rip ∧
    (picInterrupt n isr c rip sp ret).2.gpr .rsp = c.gpr .rsp ∧
    (picInterrupt n isr c rip sp ret).2.gpr .rax = c.gpr .rax ∧
    ∀ q, q ≠ .rsp → q ≠ .rax → (picInterrupt n isr c rip sp ret).2.gpr q =
      (isr (isrEntry c rip sp ret)).gpr q := by
  have hret := hisr _ ret (wrapperFrame c rip) rfl (isrEntry_entered c rip sp ret)
  unfold picInterrupt
  rw [picHandled_eq]
  generalize isrEntry c rip sp ret = e at hret ⊢
  generalize isr e = f at hret ⊢
  have hstack := hret.frame
  rw [← hret.rsp] at hstack
  have hrsp : (f.movAl 0x20).gpr .rsp = f.gpr .rsp := Cpu.set_ne _ _ (by decide)
  have hpopped : ((f.movAl 0x20).pop .rax).gpr .rsp = f.gpr .rsp + 8 := by
    rw [Cpu.pop_rsp _ (by decide), hrsp]
  have hframe : Stacked ((f.movAl 0x20).pop .rax).mem (((f.movAl 0x20).pop .rax).gpr .rsp)
      (intFrame c rip) := by
    rw [hpopped]
    exact hstack.2
  obtain ⟨hrip, hsp, hkeep⟩ := iretq_of_stacked hframe
  refine ⟨hrip, hsp, ?_, ?_⟩
  · rw [hkeep .rax (by decide), Cpu.pop_same, hrsp]
    exact hstack.1
  · intro q hq hqrax
    rw [hkeep q hq, Cpu.pop_ne _ hqrax hq]
    exact Cpu.set_ne _ _ hqrax

theorem transparent_of_left (hisr : SysV 6 isr)
    (h : ∀ r ∈ callerSaved, r ≠ .rax → (isr (isrEntry c rip sp ret)).gpr r = c.gpr r) :
    Transparent n isr c rip sp ret := by
  obtain ⟨hrip, hrsp, hrax, hrest⟩ := picInterrupt_gpr n c rip sp ret hisr
  have hret := hisr _ ret (wrapperFrame c rip) rfl (isrEntry_entered c rip sp ret)
  refine ⟨hrip, ?_⟩
  intro r
  by_cases hr : r = .rax
  · rw [hr, hrax]
  rcases gpr_cases r with rfl | hsaved | hscratch
  · exact hrsp
  · have hnrsp : r ≠ .rsp := by rintro rfl; exact absurd hsaved (by decide)
    rw [hrest r hnrsp hr, hret.saved r hsaved, isrEntry_gpr c rip sp ret hnrsp]
  · have hnrsp : r ≠ .rsp := by rintro rfl; exact absurd hscratch (by decide)
    rw [hrest r hnrsp hr]
    exact h r hscratch hr

/-- **Transparency.**  The registers survive that the function keeps or leaves alone. -/
theorem transparent_iff (hisr : SysV 6 isr) : Transparent n isr c rip sp ret ↔
    ∀ r ∈ callerSaved, r ≠ .rax → (isr (isrEntry c rip sp ret)).gpr r = c.gpr r := by
  refine ⟨?_, transparent_of_left n c rip sp ret hisr⟩
  intro h r hr hrax
  have hrsp : r ≠ .rsp := by rintro rfl; exact absurd hr (by decide)
  rw [← (picInterrupt_gpr n c rip sp ret hisr).2.2.2 r hrsp hrax]
  exact h.2 r

end handled

/-! ### Functions -/

/-- An empty function: only its `ret`. -/
def emptyIsr (c : Cpu) : Cpu := c.set .rsp (c.gpr .rsp + 8)

/-- A function that uses `rcx`. -/
def countingIsr (c : Cpu) : Cpu := (c.set .rcx 0).set .rsp (c.gpr .rsp + 8)

theorem emptyIsr_sysV : SysV 6 emptyIsr := by
  intro c ret ws _ h
  refine ⟨Cpu.set_same .., ?_, h.holds.2.2⟩
  intro r hr
  exact Cpu.set_ne _ _ (by rintro rfl; exact absurd hr (by decide))

theorem emptyIsr_left (c : Cpu) (rip sp ret : BitVec 64) :
    ∀ r ∈ callerSaved, (emptyIsr (isrEntry c rip sp ret)).gpr r = c.gpr r := by
  intro r hr
  have hrsp : r ≠ .rsp := by rintro rfl; exact absurd hr (by decide)
  exact (Cpu.set_ne _ _ hrsp).trans (isrEntry_gpr _ _ _ _ hrsp)

/-- With the functions of `interrupts.c` as they are, every interrupt is transparent. -/
theorem emptyIsr_transparent (n : Fin 16) (c : Cpu) (rip sp ret : BitVec 64) :
    Transparent n emptyIsr c rip sp ret :=
  transparent_of_left n c rip sp ret emptyIsr_sysV
    (fun r hr _ => emptyIsr_left c rip sp ret r hr)

theorem countingIsr_sysV : SysV 6 countingIsr := by
  intro c ret ws _ h
  refine ⟨Cpu.set_same .., ?_, h.holds.2.2⟩
  intro r hr
  have hrsp : r ≠ .rsp := by rintro rfl; exact absurd hr (by decide)
  have hrcx : r ≠ .rcx := by rintro rfl; exact absurd hr (by decide)
  exact (Cpu.set_ne _ _ hrsp).trans (Cpu.set_ne _ _ hrcx)

/-- The kernel in a loop that counts in `rcx`. -/
def countingCpu : Cpu where
  gpr := fun r => if r = .rsp then 0xFFFFFFFFFFFFF000 else if r = .rcx then 7 else 0
  cr := fun _ => 0
  rflags := 0x202
  cs := 0x08
  ss := 0x10
  mem := fun _ => 0
  rflags_one := by decide

theorem transparent_iff_empty : Transparent 0 emptyIsr countingCpu 0xFFFFFFFF80001000
    0xFFFFFFFFFFFFF000 0xFFFFFFFF80002000 :=
  (transparent_iff 0 countingCpu _ _ _ emptyIsr_sysV).mpr
    (fun r hr _ => emptyIsr_left countingCpu _ _ _ r hr)

theorem countingIsr_seen : SysV 6 countingIsr ∧ ¬ Transparent 0 countingIsr countingCpu
    0xFFFFFFFF80001000 0xFFFFFFFFFFFFF000 0xFFFFFFFF80002000 := by
  refine ⟨countingIsr_sysV, ?_⟩
  intro h
  have hrcx := h.2 .rcx
  rw [(picInterrupt_gpr 0 countingCpu _ _ _ countingIsr_sysV).2.2.2 .rcx (by decide)
    (by decide)] at hrcx
  exact absurd hrcx (by decide)

end Ziemniak.Kernel
