import Ziemniak.BareMetal.Cpu
import Ziemniak.BareMetal.Ports

/-! # Interrupt handlers that return

Delivery through an interrupt gate, the return from it, and handlers that call a compiled
function.  A function is what it makes of the processor, from its entry to behind its `ret`;
`SysV` is what the calling convention promises of it.  A handler is again a list of
instructions (`runHandler`), of which the `call` runs the function. -/

namespace BareMetal

namespace Cpu

def pop (c : Cpu) (r : Gpr) : Cpu :=
  (c.set .rsp (c.gpr .rsp + 8)).set r (read64 c.mem (c.gpr .rsp).toNat)

theorem pop_same (c : Cpu) (r : Gpr) : (c.pop r).gpr r = read64 c.mem (c.gpr .rsp).toNat :=
  set_same ..

theorem pop_rsp (c : Cpu) {r : Gpr} (hr : r ≠ .rsp) :
    (c.pop r).gpr .rsp = c.gpr .rsp + 8 := by
  unfold pop
  rw [set_ne _ _ hr.symm, set_same]

theorem pop_ne (c : Cpu) {r q : Gpr} (hq : q ≠ r) (hrsp : q ≠ .rsp) :
    (c.pop r).gpr q = c.gpr q := by
  unfold pop
  rw [set_ne _ _ hq, set_ne _ _ hrsp]

/-- An interrupt gate clears `IF` too. -/
def intFlags (c : Cpu) : Cpu :=
  { c with
    rflags := c.rflags &&& ~~~ (trapMask ||| 1#64 <<< 9)
    rflags_one := by
      rw [BitVec.getLsbD_and, c.rflags_one]
      decide }

@[simp] theorem intFlags_gpr (c : Cpu) : c.intFlags.gpr = c.gpr := rfl

/-- The instruction pointer and the processor behind an `iretq`, which takes five quadwords. -/
def iretq (c : Cpu) : BitVec 64 × Cpu :=
  let word := fun i : ℕ => read64 c.mem (c.gpr .rsp + 8 * BitVec.ofNat 64 i).toNat
  (word 0,
    { c with
      gpr := Function.update c.gpr .rsp (word 3)
      cs := (word 1).setWidth 16
      rflags := word 2 ||| 2
      ss := (word 4).setWidth 16
      rflags_one := by
        rw [BitVec.getLsbD_or, Bool.or_eq_true]
        exact Or.inr (by decide) })

end Cpu

/-- An interrupt at `rip` through an interrupt gate. -/
def deliverInt (c : Cpu) (rip sp : BitVec 64) : Cpu := (c.frame rip sp).intFlags

/-- The frame of an interrupt. -/
def intFrame (c : Cpu) (rip : BitVec 64) : List (BitVec 64) :=
  [rip, c.cs.setWidth 64, c.rflags, c.gpr .rsp, c.ss.setWidth 64]

theorem Holds.intFlags {c : Cpu} {ws : List (BitVec 64)} (h : Holds c ws) :
    Holds c.intFlags ws := h

theorem deliverInt_holds (c : Cpu) (rip sp : BitVec 64) :
    Holds (deliverInt c rip sp) (intFrame c rip) := (frame_holds c rip sp).intFlags

theorem deliverInt_gpr (c : Cpu) (rip sp : BitVec 64) {q : Gpr} (hq : q ≠ .rsp) :
    (deliverInt c rip sp).gpr q = c.gpr q := by
  unfold deliverInt
  rw [Cpu.intFlags_gpr, frame_gpr c rip sp hq]

theorem deliverInt_rsp (c : Cpu) (rip sp : BitVec 64) :
    ((deliverInt c rip sp).gpr .rsp).toNat % 16 = 8 := by
  have hrsp : (deliverInt c rip sp).gpr .rsp = (sp &&& 0xFFFFFFFFFFFFFFF0) - 8 - 8 - 8 - 8 - 8 := by
    unfold deliverInt Cpu.frame
    simp only [Cpu.intFlags_gpr, Cpu.push_rsp, Cpu.set_same]
  have hal : (sp &&& 0xFFFFFFFFFFFFFFF0).toNat = sp.toNat / 2 ^ 4 * 2 ^ 4 := toNat_and_highMask sp 4
  rw [hrsp]
  generalize sp &&& 0xFFFFFFFFFFFFFFF0 = base at hal ⊢
  have hmod : base.toNat % 16 = 0 := by omega
  bv_omega

/-- **The return** restores what the frame says. -/
theorem iretq_of_stacked {c d : Cpu} {rip : BitVec 64}
    (h : Stacked d.mem (d.gpr .rsp) (intFrame c rip)) :
    d.iretq.1 = rip ∧ d.iretq.2.gpr .rsp = c.gpr .rsp ∧ ∀ q ≠ .rsp, d.iretq.2.gpr q = d.gpr q := by
  have h0 := h.read (i := 0) (by simp [intFrame])
  have h3 := h.read (i := 3) (by simp [intFrame])
  have hrsp : d.iretq.2.gpr .rsp = read64 d.mem (d.gpr .rsp + 8 * BitVec.ofNat 64 3).toNat := by
    unfold Cpu.iretq
    simp only [Function.update_self]
  exact ⟨h0, hrsp.trans h3, fun q hq => Function.update_of_ne hq _ _⟩

/-! ### Functions -/

/-- The registers a function keeps for its caller. -/
def calleeSaved : List Gpr := [.rbx, .rbp, .r12, .r13, .r14, .r15]

/-- The registers a function may change. -/
def callerSaved : List Gpr := [.rax, .rcx, .rdx, .rsi, .rdi, .r8, .r9, .r10, .r11]

theorem gpr_cases (r : Gpr) : r = .rsp ∨ r ∈ calleeSaved ∨ r ∈ callerSaved := by
  cases r <;> decide

/-- At the entry of a function: the return address above the frame `ws` of the caller, at the
alignment the calling convention asks for. -/
structure Entered (c : Cpu) (ret : BitVec 64) (ws : List (BitVec 64)) : Prop where
  holds : Holds c (ret :: ws)
  aligned : 16 ∣ (c.gpr .rsp + 8).toNat

/-- Behind the `ret` of a function entered in `c`. -/
structure Returned (c c' : Cpu) (ws : List (BitVec 64)) : Prop where
  rsp : c'.gpr .rsp = c.gpr .rsp + 8
  saved : ∀ r ∈ calleeSaved, c'.gpr r = c.gpr r
  frame : Stacked c'.mem (c.gpr .rsp + 8) ws

/-- The calling convention, for a caller with `n` quadwords on its stack. -/
def SysV (n : ℕ) (body : Cpu → Cpu) : Prop :=
  ∀ c ret ws, ws.length = n → Entered c ret ws → Returned c (body c) ws

/-! ### Handlers -/

inductive HandlerInstr
  | push (r : Gpr)
  | call (ret : BitVec 64)
  | movAl (v : BitVec 8)
  | out (port : BitVec 8)
  | pop (r : Gpr)
deriving DecidableEq, Repr

def Cpu.movAl (c : Cpu) (v : BitVec 8) : Cpu :=
  c.set .rax (c.gpr .rax &&& ~~~ 0xFF ||| v.setWidth 64)

theorem Cpu.movAl_al (c : Cpu) (v : BitVec 8) : ((c.movAl v).gpr .rax).setWidth 8 = v := by
  unfold Cpu.movAl
  rw [Cpu.set_same, BitVec.setWidth_or, BitVec.setWidth_and,
    BitVec.setWidth_setWidth_of_le _ (by decide)]
  simp

/-- The processor, and what the handler itself has written to ports. -/
def HandlerInstr.exec (body : Cpu → Cpu) (s : Cpu × List PortEvent) :
    HandlerInstr → Cpu × List PortEvent
  | push r => (s.1.push (s.1.gpr r), s.2)
  | call ret => (body (s.1.push ret), s.2)
  | movAl v => (s.1.movAl v, s.2)
  | out port => (s.1, s.2 ++ [.outb (port.setWidth 16) ((s.1.gpr .rax).setWidth 8)])
  | pop r => (s.1.pop r, s.2)

def runHandler (body : Cpu → Cpu) (code : List HandlerInstr) (s : Cpu × List PortEvent) :
    Cpu × List PortEvent :=
  code.foldl (HandlerInstr.exec body) s

end BareMetal
