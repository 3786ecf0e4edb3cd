import Ziemniak.BareMetal.Cpu
import Mathlib.Tactic.IntervalCases

/-! # Exceptions

The wrappers of `wrapper_exc.asm` and the record `dump_data` that `debug_crash` reads through the
pointer they pass.  `excEntry` runs an exception from the interrupted instruction to the first
instruction of `exception_handler`: the processor pushes its frame, and the wrapper of the vector
pushes the rest of the record. -/

namespace Ziemniak.Kernel

open BareMetal

/-! ### The wrappers -/

/-- The registers of the macro `pushaq`. -/
def pushaqRegs : List Gpr :=
  [.rax, .rbx, .rcx, .rdx, .rsi, .rdi, .rbp, .r8, .r9, .r10, .r11, .r12, .r13, .r14, .r15]

def pushaq : List Instr := pushaqRegs.map .push

/-- The control registers the wrappers push through `rax`. -/
def pushedCrs : List Cr := [.cr0, .cr2, .cr3, .cr4]

/-- The macro `exc_wrap_err`; `ret` is the address after its `call`. -/
def excWrapErr (n : ℕ) (ret : BitVec 64) : List Instr :=
  pushaq ++ pushedCrs.flatMap (pushCr .rax) ++
    [.movImm .rdi (BitVec.ofNat 64 n), .mov .rsi .rsp, .call ret]

/-- The macro `exc_wrap_no_err` begins with `push qword 0`. -/
def excWrapNoErr (n : ℕ) (ret : BitVec 64) : List Instr := .pushImm 0 :: excWrapErr n ret

/-- `exc_wrapper_n`, as the list at the end of the file instantiates the macros. -/
def excWrapper (n : ℕ) : BitVec 64 → List Instr :=
  match n with
  | 8 | 10 | 11 | 12 | 13 | 14 | 17 | 30 => excWrapErr n
  | _ => excWrapNoErr n

/-! ### The record -/

structure DumpData where
  cr4 : BitVec 64
  cr3 : BitVec 64
  cr2 : BitVec 64
  cr0 : BitVec 64
  r15 : BitVec 64
  r14 : BitVec 64
  r13 : BitVec 64
  r12 : BitVec 64
  r11 : BitVec 64
  r10 : BitVec 64
  r9 : BitVec 64
  r8 : BitVec 64
  rbp : BitVec 64
  rdi : BitVec 64
  rsi : BitVec 64
  rdx : BitVec 64
  rcx : BitVec 64
  rbx : BitVec 64
  rax : BitVec 64
  err : BitVec 64
  rip : BitVec 64
  cs : BitVec 64
  rflags : BitVec 64
  rsp : BitVec 64
  ss : BitVec 64
deriving DecidableEq, Repr

/-- The record from its quadwords, in the order of `struct dump_data`. -/
def DumpData.ofWords (w : ℕ → BitVec 64) : DumpData where
  cr4 := w 0
  cr3 := w 1
  cr2 := w 2
  cr0 := w 3
  r15 := w 4
  r14 := w 5
  r13 := w 6
  r12 := w 7
  r11 := w 8
  r10 := w 9
  r9 := w 10
  r8 := w 11
  rbp := w 12
  rdi := w 13
  rsi := w 14
  rdx := w 15
  rcx := w 16
  rbx := w 17
  rax := w 18
  err := w 19
  rip := w 20
  cs := w 21
  rflags := w 22
  rsp := w 23
  ss := w 24

/-- The record that a pointer leads to. -/
def readDump (m : Mem) (dump : BitVec 64) : DumpData :=
  .ofWords (fun i => read64 m (dump + 8 * BitVec.ofNat 64 i).toNat)

theorem readDump_eq {m : Mem} {dump : BitVec 64} {ws : List (BitVec 64)} (h : Stacked m dump ws)
    (hlen : 25 ≤ ws.length) : readDump m dump = .ofWords (fun i => ws.getD i 0) := by
  have hread : ∀ i < 25, read64 m (dump + 8 * BitVec.ofNat 64 i).toNat = ws.getD i 0 := by
    intro i hi
    exact h.read (by omega)
  unfold readDump DumpData.ofWords
  simp only [hread, Nat.reduceLT]

/-! ### An exception -/

/-- The vectors for which the processor pushes an error code. -/
def pushesErr (n : ℕ) : Bool := n ∈ [8, 10, 11, 12, 13, 14, 17, 21, 29, 30]

/-- From the interrupted instruction at `rip` to the entry of `exception_handler`. -/
def excEntry (n : ℕ) (c : Cpu) (rip sp err ret : BitVec 64) : Cpu :=
  run (excWrapper n ret) (deliver c rip sp (if pushesErr n then some err else none))

/-- What the record should say: the registers as they were interrupted. -/
def interrupted (n : ℕ) (c : Cpu) (rip err : BitVec 64) : DumpData where
  cr4 := c.cr .cr4
  cr3 := c.cr .cr3
  cr2 := c.cr .cr2
  cr0 := c.cr .cr0
  r15 := c.gpr .r15
  r14 := c.gpr .r14
  r13 := c.gpr .r13
  r12 := c.gpr .r12
  r11 := c.gpr .r11
  r10 := c.gpr .r10
  r9 := c.gpr .r9
  r8 := c.gpr .r8
  rbp := c.gpr .rbp
  rdi := c.gpr .rdi
  rsi := c.gpr .rsi
  rdx := c.gpr .rdx
  rcx := c.gpr .rcx
  rbx := c.gpr .rbx
  rax := c.gpr .rax
  err := if pushesErr n then err else 0
  rip := rip
  cs := c.cs.setWidth 64
  rflags := c.rflags
  rsp := c.gpr .rsp
  ss := c.ss.setWidth 64

/-- The arguments of `exception_handler` are the vector and the registers. -/
def DumpFaithful (n : ℕ) (c : Cpu) (rip sp err ret : BitVec 64) : Prop :=
  (excEntry n c rip sp err ret).gpr .rdi = BitVec.ofNat 64 n ∧
    readDump (excEntry n c rip sp err ret).mem ((excEntry n c rip sp err ret).gpr .rsi) =
      interrupted n c rip err

/-- The words that a wrapper pushes, the last on top. -/
def savedWords (c : Cpu) : List (BitVec 64) :=
  (pushedCrs.map c.cr).reverse ++ (pushaqRegs.map c.gpr).reverse

/-- **The common part of the wrappers**: the registers go on top of what the stack holds, and the
handler gets the vector and a pointer to them. -/
theorem run_excWrapErr {c : Cpu} {ws : List (BitVec 64)} (h : Holds c ws)
    (hlen : ws.length < 2 ^ 32) (n : ℕ) (ret : BitVec 64) :
    (run (excWrapErr n ret) c).gpr .rdi = BitVec.ofNat 64 n ∧
      Stacked (run (excWrapErr n ret) c).mem ((run (excWrapErr n ret) c).gpr .rsi)
        (savedWords c ++ ws) := by
  have hgprs : pushaqRegs.length = 15 := rfl
  have hcrs : pushedCrs.length = 4 := rfl
  obtain ⟨h₁, -, hcr⟩ := run_push (by decide : Gpr.rsp ∉ pushaqRegs) h (by omega)
  have hlen₁ : ((pushaqRegs.map c.gpr).reverse ++ ws).length + pushedCrs.length < 2 ^ 60 := by
    rw [List.length_append, List.length_reverse, List.length_map]
    omega
  have h₂ := run_pushCr (r := .rax) (by decide) h₁ hlen₁
  rw [hcr, ← List.append_assoc] at h₂
  have hrun : run (excWrapErr n ret) c = run [.movImm .rdi (BitVec.ofNat 64 n), .mov .rsi .rsp,
      .call ret] (run (pushedCrs.flatMap (pushCr .rax)) (run pushaq c)) := by
    unfold excWrapErr
    rw [run_append, run_append]
  rw [hrun]
  change Holds (run (pushedCrs.flatMap (pushCr .rax)) (run pushaq c)) (savedWords c ++ ws) at h₂
  generalize run (pushedCrs.flatMap (pushCr .rax)) (run pushaq c) = d at h₂ ⊢
  have hws : (savedWords c ++ ws).length < 2 ^ 60 := by
    have : (savedWords c).length = 19 := rfl
    rw [List.length_append]
    omega
  have h₃ := (h₂.set (r := .rdi) (by decide) (BitVec.ofNat 64 n)).set (r := .rsi) (by decide)
    (d.gpr .rsp)
  have hrsp : (d.set .rdi (BitVec.ofNat 64 n)).gpr .rsp = d.gpr .rsp := Cpu.set_ne _ _ (by decide)
  simp only [run_cons, run_nil, Instr.exec, hrsp]
  have hst := h₃.stacked_push hws ret
  rw [Cpu.set_ne _ _ (by decide), hrsp] at hst
  rw [Cpu.push_ne _ _ (by decide), Cpu.push_ne _ _ (by decide), Cpu.set_ne _ _ (by decide),
    Cpu.set_same, Cpu.set_same]
  exact ⟨rfl, hst⟩

theorem run_excWrapNoErr (n : ℕ) (ret : BitVec 64) (c : Cpu) :
    run (excWrapNoErr n ret) c = run (excWrapErr n ret) (c.push 0) := by
  unfold excWrapNoErr
  rw [run_cons, Instr.exec]

/-- The frame of the processor, below the error code. -/
def frameWords (c : Cpu) (rip : BitVec 64) : List (BitVec 64) :=
  [rip, c.cs.setWidth 64, c.rflags, c.gpr .rsp, c.ss.setWidth 64]

/-- What lies between the frame and the saved registers: vectors 21 and 29 get a zero on top of
their error code. -/
def errWords (n : ℕ) (err : BitVec 64) : List (BitVec 64) :=
  if n = 21 ∨ n = 29 then [0, err] else [if pushesErr n then err else 0]

theorem excWrapper_cases {n : ℕ} (hn : n < 32) :
    (excWrapper n = excWrapErr n ∧ pushesErr n = true ∧ ¬ (n = 21 ∨ n = 29)) ∨
    (excWrapper n = excWrapNoErr n ∧ pushesErr n = false ∧ ¬ (n = 21 ∨ n = 29)) ∨
    (excWrapper n = excWrapNoErr n ∧ pushesErr n = true ∧ (n = 21 ∨ n = 29)) := by
  interval_cases n <;> simp [excWrapper, pushesErr]

theorem savedWords_deliver (c : Cpu) (rip sp : BitVec 64) (err : Option (BitVec 64)) :
    savedWords (deliver c rip sp err) = savedWords c := by
  have hgpr : pushaqRegs.map (deliver c rip sp err).gpr = pushaqRegs.map c.gpr := by
    apply List.map_congr_left
    intro q hq
    exact deliver_gpr c rip sp err (by rintro rfl; simp [pushaqRegs] at hq)
  rw [savedWords, hgpr, deliver_cr, savedWords]

theorem savedWords_push (c : Cpu) (v : BitVec 64) : savedWords (c.push v) = savedWords c := by
  have hgpr : pushaqRegs.map (c.push v).gpr = pushaqRegs.map c.gpr :=
    List.map_congr_left (fun q hq => c.push_ne v (by rintro rfl; simp [pushaqRegs] at hq))
  rw [savedWords, hgpr, Cpu.push_cr, savedWords]

/-- **What the handler is given**, for every vector. -/
theorem excEntry_stack {n : ℕ} (hn : n < 32) (c : Cpu) (rip sp err ret : BitVec 64) :
    (excEntry n c rip sp err ret).gpr .rdi = BitVec.ofNat 64 n ∧
      Stacked (excEntry n c rip sp err ret).mem ((excEntry n c rip sp err ret).gpr .rsi)
        (savedWords c ++ (errWords n err ++ frameWords c rip)) := by
  have hframe := deliver_holds c rip sp (if pushesErr n then some err else none)
  have hsaved := savedWords_deliver c rip sp (if pushesErr n then some err else none)
  unfold excEntry errWords
  generalize deliver c rip sp (if pushesErr n then some err else none) = d at hframe hsaved ⊢
  rcases excWrapper_cases hn with ⟨hw, hp, hx⟩ | ⟨hw, hp, hx⟩ | ⟨hw, hp, hx⟩
  · rw [hp] at hframe ⊢
    rw [hw, if_neg hx, ← hsaved]
    exact run_excWrapErr hframe (by simp) n ret
  · rw [hp] at hframe ⊢
    rw [hw, if_neg hx, ← hsaved, ← savedWords_push d 0, run_excWrapNoErr]
    exact run_excWrapErr (hframe.push (by simp) 0) (by simp) n ret
  · rw [hp] at hframe
    rw [hw, if_pos hx, ← hsaved, ← savedWords_push d 0, run_excWrapNoErr]
    exact run_excWrapErr (hframe.push (by simp) 0) (by simp) n ret

theorem readDump_excEntry {n : ℕ} (hn : n < 32) (c : Cpu) (rip sp err ret : BitVec 64) :
    readDump (excEntry n c rip sp err ret).mem ((excEntry n c rip sp err ret).gpr .rsi) =
      .ofWords (fun i => (savedWords c ++ (errWords n err ++ frameWords c rip)).getD i 0) := by
  apply readDump_eq (excEntry_stack hn c rip sp err ret).2
  have h₁ : (savedWords c).length = 19 := rfl
  have h₂ : (frameWords c rip).length = 5 := rfl
  have h₃ : 1 ≤ (errWords n err).length := by
    unfold errWords
    split_ifs <;> simp
  rw [List.length_append, List.length_append]
  omega

/-- **The record of an exception** is right exactly for the vectors other than 21 and 29. -/
theorem dumpFaithful_iff {n : ℕ} (hn : n < 32) (c : Cpu) (rip sp err ret : BitVec 64) :
    DumpFaithful n c rip sp err ret ↔ n ≠ 21 ∧ n ≠ 29 := by
  have hrdi := (excEntry_stack hn c rip sp err ret).1
  unfold DumpFaithful
  rw [readDump_excEntry hn, and_iff_right hrdi, ← not_or]
  constructor
  · intro hdump hx
    unfold errWords at hdump
    rw [if_pos hx] at hdump
    have hflags : c.cs.setWidth 64 = c.rflags := congrArg DumpData.rflags hdump
    have hcs : rip = c.cs.setWidth 64 := congrArg DumpData.cs hdump
    have hrip : err = rip := congrArg DumpData.rip hdump
    have herr : 0 = if pushesErr n then err else 0 := congrArg DumpData.err hdump
    have hp : pushesErr n = true := by rcases hx with rfl | rfl <;> rfl
    rw [if_pos hp, hrip, hcs, hflags] at herr
    have hone := c.rflags_one
    rw [← herr] at hone
    exact absurd hone (by decide)
  · intro hx
    unfold errWords
    rw [if_neg hx]
    rfl

/-- A processor in kernel code. -/
def kernelCpu : Cpu where
  gpr := fun r => if r = .rsp then 0xFFFFFFFFFFFFF000 else 0
  cr := fun _ => 0
  rflags := 2
  cs := 0x08
  ss := 0x10
  mem := fun _ => 0
  rflags_one := by decide

/-- A control protection exception with error code 1: the record has the code as `rip`. -/
theorem dump_shifted : (readDump (excEntry 21 kernelCpu 0xFFFFFFFF80001000 0xFFFFFFFFFFFFF000 1
      0xFFFFFFFF80002000).mem ((excEntry 21 kernelCpu 0xFFFFFFFF80001000 0xFFFFFFFFFFFFF000 1
      0xFFFFFFFF80002000).gpr .rsi)).rip = 1 ∧
    ¬ DumpFaithful 21 kernelCpu 0xFFFFFFFF80001000 0xFFFFFFFFFFFFF000 1 0xFFFFFFFF80002000 := by
  have hrip : (readDump _ _).rip = 1 := congrArg DumpData.rip (readDump_excEntry (n := 21)
    (by decide) kernelCpu 0xFFFFFFFF80001000 0xFFFFFFFFFFFFF000 1 0xFFFFFFFF80002000)
  refine ⟨hrip, ?_⟩
  intro h
  rw [h.2] at hrip
  exact absurd hrip (by decide)

theorem dumpFaithful_iff_protection : DumpFaithful 13 kernelCpu 0xFFFFFFFF80001000
    0xFFFFFFFFFFFFF000 0x10 0xFFFFFFFF80002000 :=
  (dumpFaithful_iff (by decide) kernelCpu _ _ _ _).mpr (by decide)

end Ziemniak.Kernel
