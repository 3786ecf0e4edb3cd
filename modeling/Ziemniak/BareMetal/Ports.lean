import Ziemniak.BareMetal.Loop

/-! # Ports and interrupts

A device as a driver sees it: bytes and blocks of words go through numbered ports, and
interrupts arrive on their own.  The device's state may hold its whole future, so a statement
about every `Device` is one about every sequence of answers, whether or not real hardware
gives it.  `Device.traced` is the same device with the list of its port accesses. -/

namespace BareMetal

/-- A device with states `δ`.  `irq` is asked when the driver looks at the flag that the
interrupt handlers set: it answers with the bits they have set since the last time. -/
structure Device (δ : Type) where
  inb : BitVec 16 → δ → BitVec 8 × δ
  outb : BitVec 16 → BitVec 8 → δ → δ
  insw : BitVec 16 → ℕ → δ → List (BitVec 16) × δ
  outsw : BitVec 16 → List (BitVec 16) → δ → δ
  irq : δ → BitVec 8 × δ
  insw_length : ∀ port n d, (insw port n d).1.length = n

namespace Device

variable {δ : Type} (dev : Device δ)

/-- Read `port` until the value is no longer `busy`. -/
def poll (fuel : ℕ) (port : BitVec 16) (busy : BitVec 8 → Bool) (d : δ) :
    Option (BitVec 8 × δ) :=
  whileLoop (fun s => busy s.1) (fun s => some (dev.inb port s.2)) fuel (dev.inb port d)

/-- Clear the flag: what interrupts set before is lost. -/
def clearFlag (d : δ) : δ := (dev.irq d).2

/-- Wait for an interrupt to set a bit of the cleared flag. -/
def awaitFlag (fuel : ℕ) (d : δ) : Option (BitVec 8 × δ) :=
  whileLoop (fun s : BitVec 8 × δ => s.1 == 0)
    (fun s => some (s.1 ||| (dev.irq s.2).1, (dev.irq s.2).2)) fuel (0, d)

variable {dev} {d : δ}

theorem poll_of_not_busy {port : BitVec 16} {busy : BitVec 8 → Bool}
    (h : busy (dev.inb port d).1 = false) (fuel : ℕ) :
    dev.poll fuel port busy d = some (dev.inb port d) :=
  whileLoop_of_not (c := fun s : BitVec 8 × δ => busy s.1) h fuel

theorem poll_not_busy {fuel : ℕ} {port : BitVec 16} {busy : BitVec 8 → Bool}
    {r : BitVec 8 × δ} (h : dev.poll fuel port busy d = some r) : busy r.1 = false :=
  (whileLoop_invariant (I := fun _ => True) (fun _ _ _ _ _ => trivial) trivial h).2

theorem awaitFlag_ne_zero {fuel : ℕ} {r : BitVec 8 × δ} (h : dev.awaitFlag fuel d = some r) :
    r.1 ≠ 0 :=
  beq_eq_false_iff_ne.mp
    (whileLoop_invariant (I := fun _ => True) (fun _ _ _ _ _ => trivial) trivial h).2

theorem awaitFlag_of_irq (h : (dev.irq d).1 ≠ 0) (fuel : ℕ) :
    dev.awaitFlag (fuel + 1) d = some (dev.irq d) := by
  have hexit : whileLoop (fun s : BitVec 8 × δ => s.1 == 0)
      (fun s => some (s.1 ||| (dev.irq s.2).1, (dev.irq s.2).2)) fuel (dev.irq d) =
      some (dev.irq d) := whileLoop_of_not (by simpa using h) fuel
  simpa [awaitFlag, whileLoop] using hexit

end Device

/-! ### Traces -/

/-- A port access and what it transferred. -/
inductive PortEvent
  | inb (port : BitVec 16) (v : BitVec 8)
  | outb (port : BitVec 16) (v : BitVec 8)
  | insw (port : BitVec 16) (ws : List (BitVec 16))
  | outsw (port : BitVec 16) (ws : List (BitVec 16))
deriving DecidableEq, Repr

/-- The bytes written, with their ports. -/
def PortEvent.written : PortEvent → Option (BitVec 16 × BitVec 8)
  | outb port v => some (port, v)
  | _ => none

namespace Device

variable {δ : Type}

/-- The device with its accesses, the latest at the end. -/
def traced (dev : Device δ) : Device (δ × List PortEvent) where
  inb port d :=
    let r := dev.inb port d.1
    (r.1, r.2, d.2 ++ [.inb port r.1])
  outb port v d := (dev.outb port v d.1, d.2 ++ [.outb port v])
  insw port n d :=
    let r := dev.insw port n d.1
    (r.1, r.2, d.2 ++ [.insw port r.1])
  outsw port ws d := (dev.outsw port ws d.1, d.2 ++ [.outsw port ws])
  irq d :=
    let r := dev.irq d.1
    (r.1, r.2, d.2)
  insw_length port n d := dev.insw_length port n d.1

/-- What was written to the ports. -/
def writes (d : δ × List PortEvent) : List (BitVec 16 × BitVec 8) :=
  d.2.filterMap PortEvent.written

section writes

variable {dev : Device δ} {d : δ × List PortEvent}

@[simp] theorem writes_outb (port : BitVec 16) (v : BitVec 8) :
    writes (dev.traced.outb port v d) = writes d ++ [(port, v)] := by
  unfold writes traced
  rw [List.filterMap_append]
  rfl

@[simp] theorem writes_inb (port : BitVec 16) : writes (dev.traced.inb port d).2 = writes d := by
  unfold writes traced
  simp only [List.filterMap_append]
  exact List.append_nil _

@[simp] theorem writes_insw (port : BitVec 16) (n : ℕ) :
    writes (dev.traced.insw port n d).2 = writes d := by
  unfold writes traced
  simp only [List.filterMap_append]
  exact List.append_nil _

@[simp] theorem writes_outsw (port : BitVec 16) (ws : List (BitVec 16)) :
    writes (dev.traced.outsw port ws d) = writes d := by
  unfold writes traced
  rw [List.filterMap_append]
  exact List.append_nil _

@[simp] theorem writes_irq : writes (dev.traced.irq d).2 = writes d := rfl

@[simp] theorem writes_clearFlag : writes (dev.traced.clearFlag d) = writes d := rfl

theorem writes_poll {fuel : ℕ} {port : BitVec 16} {busy : BitVec 8 → Bool}
    {r : BitVec 8 × (δ × List PortEvent)} (h : dev.traced.poll fuel port busy d = some r) :
    writes r.2 = writes d :=
  (whileLoop_invariant (I := fun s : BitVec 8 × (δ × List PortEvent) => writes s.2 = writes d)
    (by
      intro s s' hs _ hf
      obtain rfl := Option.some.inj hf
      rw [writes_inb]
      exact hs)
    (writes_inb port) h).1

theorem writes_awaitFlag {fuel : ℕ} {r : BitVec 8 × (δ × List PortEvent)}
    (h : dev.traced.awaitFlag fuel d = some r) : writes r.2 = writes d :=
  (whileLoop_invariant (I := fun s : BitVec 8 × (δ × List PortEvent) => writes s.2 = writes d)
    (by
      intro s s' hs _ hf
      obtain rfl := Option.some.inj hf
      rw [writes_irq]
      exact hs)
    rfl h).1

end writes

/-- Polling reads one port, and the value it returns was read last. -/
theorem poll_traced {dev : Device δ} {fuel : ℕ} {port : BitVec 16} {busy : BitVec 8 → Bool}
    {d d' : δ × List PortEvent} {sts : BitVec 8}
    (h : dev.traced.poll fuel port busy d = some (sts, d')) : busy sts = false ∧
      ∃ l : List (BitVec 8), d'.2 = d.2 ++ (l ++ [sts]).map (.inb port) := by
  obtain ⟨⟨l, hl⟩, hbusy⟩ := whileLoop_invariant
    (I := fun s : BitVec 8 × (δ × List PortEvent) =>
      ∃ l : List (BitVec 8), s.2.2 = d.2 ++ (l ++ [s.1]).map (.inb port))
    (by
      rintro ⟨v, e⟩ s' ⟨l, hl⟩ - hs
      obtain rfl := Option.some.inj hs
      refine ⟨l ++ [v], ?_⟩
      simp only [traced] at hl ⊢
      rw [hl, List.append_assoc, ← List.map_singleton, ← List.map_append])
    ⟨[], by simp [traced]⟩ h
  exact ⟨hbusy, l, hl⟩

end Device

end BareMetal
