import Ziemniak.BareMetal.Ports

/-! # The sending side of a UART

A UART as its driver's writes leave it: the byte last written to every port, and the bytes on the
line of a UART at every base.  A byte written to the base goes to the line unless the divisor
latch is selected (bit 7 of the line control register) or the UART is in loopback mode (bit 4 of
the modem control register).  `Device.wired` puts UARTs behind a device that answers the reads. -/

namespace BareMetal

structure Uart where
  reg : BitVec 16 → BitVec 8
  line : BitVec 16 → List (BitVec 8)

namespace Uart

/-- What is written to the UART at `base` goes to its line. -/
def Transmits (u : Uart) (base : BitVec 16) : Prop :=
  u.reg (base + 3) &&& 0x80 = 0 ∧ u.reg (base + 4) &&& 0x10 = 0

instance (u : Uart) (base : BitVec 16) : Decidable (u.Transmits base) :=
  inferInstanceAs (Decidable (_ ∧ _))

def write (u : Uart) (port : BitVec 16) (v : BitVec 8) : Uart where
  reg := Function.update u.reg port v
  line := if u.Transmits port then Function.update u.line port (u.line port ++ [v]) else u.line

/-- A sequence of writes. -/
def writeAll (u : Uart) (ws : List (BitVec 16 × BitVec 8)) : Uart :=
  ws.foldl (fun u w => u.write w.1 w.2) u

@[simp] theorem reg_write (u : Uart) (port : BitVec 16) (v : BitVec 8) :
    (u.write port v).reg = Function.update u.reg port v := rfl

variable {u : Uart} {base : BitVec 16}

theorem Transmits.write_line (h : u.Transmits base) (v : BitVec 8) :
    (u.write base v).line base = u.line base ++ [v] := by
  unfold write
  rw [if_pos h]
  exact Function.update_self ..

theorem line_write_of_ne {port q : BitVec 16} (h : port ≠ q) (v : BitVec 8) :
    (u.write port v).line q = u.line q := by
  unfold write
  split_ifs
  · exact Function.update_of_ne h.symm _ _
  · rfl

theorem line_write_of_not (h : ¬ u.Transmits base) (v : BitVec 8) :
    (u.write base v).line = u.line := by
  unfold write
  rw [if_neg h]

theorem Transmits.write (h : u.Transmits base) (v : BitVec 8) :
    (u.write base v).Transmits base := by
  have h3 : base + 3 ≠ base := by simp
  have h4 : base + 4 ≠ base := by simp
  unfold Transmits
  rw [reg_write, Function.update_of_ne h3, Function.update_of_ne h4]
  exact h

end Uart

namespace Device

variable {δ : Type}

/-- The device, and the UARTs behind the same ports. -/
def wired (dev : Device δ) : Device (δ × Uart) where
  inb port d := ((dev.inb port d.1).1, (dev.inb port d.1).2, d.2)
  outb port v d := (dev.outb port v d.1, d.2.write port v)
  insw port n d := ((dev.insw port n d.1).1, (dev.insw port n d.1).2, d.2)
  outsw port ws d := (dev.outsw port ws d.1, d.2)
  irq d := ((dev.irq d.1).1, (dev.irq d.1).2, d.2)
  insw_length port n d := dev.insw_length port n d.1

theorem wired_poll {dev : Device δ} {fuel : ℕ} {port : BitVec 16} {busy : BitVec 8 → Bool}
    {d : δ × Uart} {r : BitVec 8 × (δ × Uart)} (h : dev.wired.poll fuel port busy d = some r) :
    r.2.2 = d.2 :=
  (whileLoop_invariant (I := fun s : BitVec 8 × (δ × Uart) => s.2.2 = d.2)
    (by
      intro s s' hs _ hf
      obtain rfl := Option.some.inj hf
      exact hs)
    rfl h).1

theorem wired_poll_map (dev : Device δ) (fuel : ℕ) (port : BitVec 16) (busy : BitVec 8 → Bool)
    (d : δ × Uart) : (dev.wired.poll fuel port busy d).map (fun r => (r.1, r.2.1)) =
      dev.poll fuel port busy d.1 := by
  have hread : ∀ r : BitVec 8 × (δ × Uart),
      (some (dev.wired.inb port r.2)).map (fun r => (r.1, r.2.1)) =
        some (dev.inb port (r.1, r.2.1).2) := fun _ => rfl
  exact whileLoop_map (d := fun r : BitVec 8 × δ => busy r.1) _ (fun _ => rfl) hread fuel _

end Device

end BareMetal
