import Mathlib.Logic.Function.Basic
import Ziemniak.BareMetal.Memory

/-! # The stack of a 64-bit x86 processor

The registers an interrupt handler sees, the delivery of an interrupt through a gate of the
64-bit descriptor table, and the instructions such handlers are made of.  Code is straight-line:
a list of instructions runs from its first to its last (`run`), and a `call` names the address
it returns to.

`Stacked m p ws` says that the quadwords `ws` lie at `p`, the first at `p` itself.  What a handler
finds on its stack is then a list, and an instruction that pushes adds to its front
(`Holds.push`). -/

namespace BareMetal

inductive Gpr
  | rax | rbx | rcx | rdx | rsi | rdi | rbp | rsp
  | r8 | r9 | r10 | r11 | r12 | r13 | r14 | r15
deriving DecidableEq, Repr

inductive Cr
  | cr0 | cr2 | cr3 | cr4
deriving DecidableEq, Repr

/-- The processor; bit 1 of the flags is always set. -/
structure Cpu where
  gpr : Gpr → BitVec 64
  cr : Cr → BitVec 64
  rflags : BitVec 64
  cs : BitVec 16
  ss : BitVec 16
  mem : Mem
  rflags_one : rflags.getLsbD 1 = true

namespace Cpu

def set (c : Cpu) (r : Gpr) (v : BitVec 64) : Cpu := { c with gpr := Function.update c.gpr r v }

/-- Push a quadword. -/
def push (c : Cpu) (v : BitVec 64) : Cpu :=
  { c with
    gpr := Function.update c.gpr .rsp (c.gpr .rsp - 8)
    mem := write64 c.mem (c.gpr .rsp - 8).toNat v }

@[simp] theorem set_same (c : Cpu) (r : Gpr) (v : BitVec 64) : (c.set r v).gpr r = v := by
  simp [set]

theorem set_ne (c : Cpu) {r q : Gpr} (v : BitVec 64) (h : q ≠ r) : (c.set r v).gpr q = c.gpr q := by
  simp [set, h]

@[simp] theorem set_cr (c : Cpu) (r : Gpr) (v : BitVec 64) : (c.set r v).cr = c.cr := rfl

@[simp] theorem push_rsp (c : Cpu) (v : BitVec 64) : (c.push v).gpr .rsp = c.gpr .rsp - 8 := by
  simp [push]

theorem push_ne (c : Cpu) {q : Gpr} (v : BitVec 64) (h : q ≠ .rsp) :
    (c.push v).gpr q = c.gpr q := by
  simp [push, h]

@[simp] theorem push_cr (c : Cpu) (v : BitVec 64) : (c.push v).cr = c.cr := rfl

end Cpu

/-! ### What lies on the stack -/

/-- The quadwords from `p` upwards. -/
def Stacked (m : Mem) (p : BitVec 64) : List (BitVec 64) → Prop
  | [] => True
  | w :: ws => read64 m p.toNat = w ∧ Stacked m (p + 8) ws

/-- The stack: `ws` from the stack pointer upwards, which is aligned. -/
def Holds (c : Cpu) (ws : List (BitVec 64)) : Prop :=
  8 ∣ (c.gpr .rsp).toNat ∧ Stacked c.mem (c.gpr .rsp) ws

theorem Stacked.read {m : Mem} {ws : List (BitVec 64)} {p : BitVec 64} (h : Stacked m p ws) {i : ℕ}
    (hi : i < ws.length) : read64 m (p + 8 * BitVec.ofNat 64 i).toNat = ws.getD i 0 := by
  induction ws generalizing p i with
  | nil => exact absurd hi (Nat.not_lt_zero i)
  | cons w ws ih =>
      cases i with
      | zero => simpa using h.1
      | succ i =>
          have e : p + 8 * BitVec.ofNat 64 (i + 1) = p + 8 + 8 * BitVec.ofNat 64 i := by
            rw [BitVec.ofNat_add, BitVec.mul_add, BitVec.add_comm (8 * _), ← BitVec.add_assoc]
            rfl
          rw [e, List.getD_cons_succ]
          exact ih h.2 (Nat.lt_of_succ_lt_succ hi)

/-- A store below the words does not reach them, unless they go all the way round. -/
theorem Stacked.write {m : Mem} {p q v : BitVec 64} {ws : List (BitVec 64)} (h : Stacked m p ws)
    (hq : 8 ∣ q.toNat) (hp : 8 ∣ p.toNat) (hpos : 0 < (p - q).toNat)
    (hlen : (p - q).toNat + 8 * ws.length < 2 ^ 64) : Stacked (write64 m q.toNat v) p ws := by
  induction ws generalizing p with
  | nil => trivial
  | cons w ws ih =>
      have hpq := BitVec.toNat_sub p q
      have hp8 : (p + 8).toNat = (p.toNat + 8) % 2 ^ 64 := BitVec.toNat_add ..
      have hpq8 := BitVec.toNat_sub (p + 8) q
      have hp' := p.isLt
      have hq' := q.isLt
      rw [List.length_cons] at hlen
      have hne : p.toNat ≠ q.toNat := by omega
      refine ⟨?_, ih h.2 (by omega) (by omega) (by omega)⟩
      rw [read64_write64_aligned hq hp, if_neg hne]
      exact h.1

theorem Holds.push {c : Cpu} {ws : List (BitVec 64)} (h : Holds c ws) (hlen : ws.length < 2 ^ 60)
    (v : BitVec 64) : Holds (c.push v) (v :: ws) := by
  obtain ⟨hal, hst⟩ := h
  have h8 : (c.gpr .rsp - 8).toNat = (2 ^ 64 - 8 + (c.gpr .rsp).toNat) % 2 ^ 64 :=
    BitVec.toNat_sub ..
  have hal' : 8 ∣ (c.gpr .rsp - 8).toNat := by omega
  have hmem : (c.push v).mem = write64 c.mem (c.gpr .rsp - 8).toNat v := rfl
  have hlt := (c.gpr .rsp).isLt
  have hd8 : (c.gpr .rsp - (c.gpr .rsp - 8)).toNat = 8 := by
    rw [BitVec.toNat_sub]
    omega
  refine ⟨by rwa [Cpu.push_rsp], ?_⟩
  rw [Cpu.push_rsp, hmem]
  refine ⟨read64_write64 .., ?_⟩
  rw [BitVec.sub_add_cancel]
  exact hst.write hal' hal (by omega) (by omega)

theorem Holds.set {c : Cpu} {ws : List (BitVec 64)} (h : Holds c ws) {r : Gpr} (hr : r ≠ .rsp)
    (v : BitVec 64) : Holds (c.set r v) ws := by
  unfold Holds
  rw [c.set_ne v hr.symm]
  exact h

/-- A call leaves what was on the stack above its return address. -/
theorem Holds.stacked_push {c : Cpu} {ws : List (BitVec 64)} (h : Holds c ws)
    (hlen : ws.length < 2 ^ 60) (v : BitVec 64) : Stacked (c.push v).mem (c.gpr .rsp) ws := by
  have hpush := (h.push hlen v).2.2
  rwa [Cpu.push_rsp, BitVec.sub_add_cancel] at hpush

/-! ### Instructions -/

inductive Instr
  | push (r : Gpr)
  | pushImm (v : BitVec 64)
  | movImm (r : Gpr) (v : BitVec 64)
  | mov (r q : Gpr)
  | movCr (r : Gpr) (k : Cr)
  | call (ret : BitVec 64)
deriving DecidableEq, Repr

def Instr.exec (c : Cpu) : Instr → Cpu
  | push r => c.push (c.gpr r)
  | pushImm v => c.push v
  | movImm r v => c.set r v
  | mov r q => c.set r (c.gpr q)
  | movCr r k => c.set r (c.cr k)
  | call ret => c.push ret

def run (code : List Instr) (c : Cpu) : Cpu := code.foldl Instr.exec c

@[simp] theorem run_nil (c : Cpu) : run [] c = c := rfl

@[simp] theorem run_cons (i : Instr) (code : List Instr) (c : Cpu) :
    run (i :: code) c = run code (i.exec c) := rfl

theorem run_append (p q : List Instr) (c : Cpu) : run (p ++ q) c = run q (run p c) :=
  List.foldl_append

/-! ### Delivery -/

/-- The flags a trap gate clears: `TF`, `NT`, `RF` and `VM`. -/
def trapMask : BitVec 64 := 1#64 <<< 8 ||| 1#64 <<< 14 ||| 1#64 <<< 16 ||| 1#64 <<< 17

/-- The frame of an exception at `rip`: it goes to the next 16-byte boundary below `sp`, which is
the interrupted `rsp` or the stack that the task state segment names. -/
def Cpu.frame (c : Cpu) (rip sp : BitVec 64) : Cpu :=
  let c' := c.set .rsp (sp &&& 0xFFFFFFFFFFFFFFF0)
  let c' := c'.push (c.ss.setWidth 64)
  let c' := c'.push (c.gpr .rsp)
  let c' := c'.push c.rflags
  let c' := c'.push (c.cs.setWidth 64)
  c'.push rip

def Cpu.pushErr (c : Cpu) : Option (BitVec 64) → Cpu
  | some e => c.push e
  | none => c

def Cpu.trapFlags (c : Cpu) : Cpu :=
  { c with
    rflags := c.rflags &&& ~~~ trapMask
    rflags_one := by
      rw [BitVec.getLsbD_and, c.rflags_one]
      decide }

/-- An exception at `rip` through a trap gate. -/
def deliver (c : Cpu) (rip sp : BitVec 64) (err : Option (BitVec 64)) : Cpu :=
  ((c.frame rip sp).pushErr err).trapFlags

theorem aligned_and (sp : BitVec 64) : 8 ∣ (sp &&& 0xFFFFFFFFFFFFFFF0).toNat := by
  have h : (sp &&& 0xFFFFFFFFFFFFFFF0).toNat = sp.toNat / 2 ^ 4 * 2 ^ 4 := toNat_and_highMask sp 4
  omega

theorem frame_holds (c : Cpu) (rip sp : BitVec 64) : Holds (c.frame rip sp)
    [rip, c.cs.setWidth 64, c.rflags, c.gpr .rsp, c.ss.setWidth 64] := by
  have h0 : Holds (c.set .rsp (sp &&& 0xFFFFFFFFFFFFFFF0)) [] := by
    refine ⟨?_, trivial⟩
    rw [Cpu.set_same]
    exact aligned_and sp
  have h1 := h0.push (by simp) (c.ss.setWidth 64)
  have h2 := h1.push (by simp) (c.gpr .rsp)
  have h3 := h2.push (by simp) c.rflags
  have h4 := h3.push (by simp) (c.cs.setWidth 64)
  exact h4.push (by simp) rip

theorem Holds.trapFlags {c : Cpu} {ws : List (BitVec 64)} (h : Holds c ws) :
    Holds c.trapFlags ws := h

/-- **The stack of an exception**, the error code on top when there is one. -/
theorem deliver_holds (c : Cpu) (rip sp : BitVec 64) (err : Option (BitVec 64)) :
    Holds (deliver c rip sp err) (err.toList ++
      [rip, c.cs.setWidth 64, c.rflags, c.gpr .rsp, c.ss.setWidth 64]) := by
  cases err with
  | none => exact (frame_holds c rip sp).trapFlags
  | some e => exact ((frame_holds c rip sp).push (by simp) e).trapFlags

theorem frame_gpr (c : Cpu) (rip sp : BitVec 64) {q : Gpr} (hq : q ≠ .rsp) :
    (c.frame rip sp).gpr q = c.gpr q := by
  unfold Cpu.frame
  rw [Cpu.push_ne _ _ hq, Cpu.push_ne _ _ hq, Cpu.push_ne _ _ hq, Cpu.push_ne _ _ hq,
    Cpu.push_ne _ _ hq, Cpu.set_ne _ _ hq]

theorem deliver_gpr (c : Cpu) (rip sp : BitVec 64) (err : Option (BitVec 64)) {q : Gpr}
    (hq : q ≠ .rsp) : (deliver c rip sp err).gpr q = c.gpr q := by
  have htrap : (deliver c rip sp err).gpr = ((c.frame rip sp).pushErr err).gpr := rfl
  rw [htrap]
  cases err with
  | none => exact frame_gpr c rip sp hq
  | some e =>
      have herr : (c.frame rip sp).pushErr (some e) = (c.frame rip sp).push e := rfl
      rw [herr, Cpu.push_ne _ e hq, frame_gpr c rip sp hq]

theorem deliver_cr (c : Cpu) (rip sp : BitVec 64) (err : Option (BitVec 64)) :
    (deliver c rip sp err).cr = c.cr := by
  cases err <;> rfl

/-! ### Saving registers -/

/-- **Saved registers**: pushed one by one, the last is on top; nothing but `rsp` changes. -/
theorem run_push {rs : List Gpr} (hrsp : Gpr.rsp ∉ rs) {c : Cpu} {ws : List (BitVec 64)}
    (h : Holds c ws) (hlen : ws.length + rs.length < 2 ^ 60) :
    Holds (run (rs.map .push) c) ((rs.map c.gpr).reverse ++ ws) ∧
      (∀ q ≠ .rsp, (run (rs.map .push) c).gpr q = c.gpr q) ∧
      (run (rs.map .push) c).cr = c.cr := by
  induction rs generalizing c ws with
  | nil => exact ⟨h, fun _ _ => rfl, rfl⟩
  | cons r rs ih =>
      rw [List.length_cons] at hlen
      obtain ⟨hhold, hgpr, hcr⟩ := ih (List.not_mem_of_not_mem_cons hrsp)
        (h.push (by omega) (c.gpr r)) (by rw [List.length_cons]; omega)
      have hmap : rs.map (c.push (c.gpr r)).gpr = rs.map c.gpr := by
        apply List.map_congr_left
        intro q hq
        apply c.push_ne
        rintro rfl
        exact hrsp (List.mem_cons_of_mem _ hq)
      rw [hmap] at hhold
      have hrun : run ((r :: rs).map .push) c = run (rs.map .push) (c.push (c.gpr r)) := rfl
      rw [hrun]
      refine ⟨by simpa using hhold, ?_, hcr⟩
      intro q hq
      rw [hgpr q hq]
      exact c.push_ne _ hq

/-- `mov r, k; push r` -/
def pushCr (r : Gpr) (k : Cr) : List Instr := [.movCr r k, .push r]

theorem run_pushCr {r : Gpr} (hr : r ≠ .rsp) {ks : List Cr} {c : Cpu} {ws : List (BitVec 64)}
    (h : Holds c ws) (hlen : ws.length + ks.length < 2 ^ 60) :
    Holds (run (ks.flatMap (pushCr r)) c) ((ks.map c.cr).reverse ++ ws) := by
  induction ks generalizing c ws with
  | nil => exact h
  | cons k ks ih =>
      rw [List.length_cons] at hlen
      have hpush := (h.set hr (c.cr k)).push (by omega) (c.cr k)
      have hrec := ih hpush (by rw [List.length_cons]; omega)
      have hrun : run ((k :: ks).flatMap (pushCr r)) c =
          run (ks.flatMap (pushCr r)) ((c.set r (c.cr k)).push (c.cr k)) := by
        have e : (c.set r (c.cr k)).gpr r = c.cr k := Cpu.set_same ..
        rw [List.flatMap_cons, run_append]
        unfold pushCr
        simp only [run_cons, run_nil, Instr.exec, e]
      rw [hrun]
      simpa using hrec

end BareMetal
