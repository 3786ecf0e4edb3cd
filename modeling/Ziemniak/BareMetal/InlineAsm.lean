import Mathlib.Logic.Function.Basic
import Mathlib.Data.List.Basic

/-! # Inline assembly

An `asm` statement in compiled code.  The compiler chooses a register for every operand.  It puts
the value of an input operand there before the statement; of an output operand it takes what the
register holds afterwards, and the value that the expression had before is not kept anywhere.  A
register that no input operand has holds what the code before the statement left in it
(`load_of_not_input`).

The machine is a register file and whatever else the template works on. -/

namespace BareMetal

inductive Direction
  | input
  | output
deriving DecidableEq, Repr

/-- An operand with its register, and the value of its expression before the statement. -/
structure Operand (ρ W : Type) where
  dir : Direction
  reg : ρ
  val : W

section asm

variable {ρ W μ : Type} [DecidableEq ρ]

/-- The registers when the template begins. -/
def load (ops : List (Operand ρ W)) (regs : ρ → W) : ρ → W :=
  ops.foldl (fun regs o => if o.dir = .input then Function.update regs o.reg o.val else regs) regs

/-- The statement. -/
def asm (template : (ρ → W) × μ → (ρ → W) × μ) (ops : List (Operand ρ W)) (s : (ρ → W) × μ) :
    (ρ → W) × μ :=
  template (load ops s.1, s.2)

theorem load_cons (o : Operand ρ W) (ops : List (Operand ρ W)) (regs : ρ → W) :
    load (o :: ops) regs =
      load ops (if o.dir = .input then Function.update regs o.reg o.val else regs) := rfl

theorem load_of_not_input {ops : List (Operand ρ W)} {r : ρ}
    (h : ∀ o ∈ ops, o.dir = .input → o.reg ≠ r) (regs : ρ → W) : load ops regs r = regs r := by
  induction ops generalizing regs with
  | nil => rfl
  | cons o ops ih =>
      obtain ⟨ho, hops⟩ := List.forall_mem_cons.mp h
      rw [load_cons, ih hops]
      split_ifs with hin
      · exact Function.update_of_ne (ho hin).symm _ _
      · rfl

theorem load_input {ops : List (Operand ρ W)} (hregs : (ops.map Operand.reg).Nodup)
    {o : Operand ρ W} (ho : o ∈ ops) (hin : o.dir = .input) (regs : ρ → W) :
    load ops regs o.reg = o.val := by
  induction ops generalizing regs with
  | nil => cases ho
  | cons p ops ih =>
      rw [List.map_cons, List.nodup_cons] at hregs
      rw [load_cons]
      cases List.mem_cons.mp ho with
      | inl heq =>
          subst heq
          have hother : ∀ q ∈ ops, q.dir = .input → q.reg ≠ o.reg := by
            intro q hq _ hreg
            exact hregs.1 (hreg ▸ List.mem_map_of_mem hq)
          rw [load_of_not_input hother, if_pos hin, Function.update_self]
      | inr hmem => exact ih hregs.2 hmem _

end asm

end BareMetal
