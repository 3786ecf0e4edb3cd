import Ziemniak.BareMetal.Uart
import Ziemniak.Kernel.Serial

/-! # Ports after a failed initialisation

`serial_init` puts the UART in loopback mode for its self-test and leaves it there when the test
fails, while the context of an earlier call still says that the port is ready.  `keepsLine_iff`:
a failing call keeps every ready port on its line exactly when it does not fail in the self-test
of such a port (or of one that shares registers with it). -/

namespace Ziemniak.Kernel

open BareMetal

variable {δ : Type}

/-! ### The self-test -/

/-- The writes of `serial_init` up to the read of the self-test. -/
def initWrites (port : BitVec 16) : List (BitVec 16 × BitVec 8) :=
  [(port + INTEN_REG, 0x00), (port + LINE_CTL_REG, DLAB), (port + DIV_LOW_REG, 0x01),
    (port + DIV_HIGH_REG, 0x00), (port + LINE_CTL_REG, 0x03), (port + INT_FIFO_REG, 0xC7),
    (port + MODEM_CTL_REG, 0x0B), (port + MODEM_CTL_REG, 0x1E), (port + DATA_REG, 0x5A)]

/-- What the read of the self-test returns, with the state behind it. -/
def selfTest (dev : Device δ) (port : BitVec 16) (d : δ) : BitVec 8 × δ :=
  dev.inb (port + DATA_REG) ((initWrites port).foldl (fun d w => dev.outb w.1 w.2 d) d)

theorem serialInit_eq (dev : Device δ) (m : Mem) (id rx_cb : BitVec 64) (ctx : SerialCtxs) (d : δ)
    (h : id.toNat < SERIAL_CNT) (hport : bdaComs m id.toNat ≠ 0) :
    serialInit dev m id rx_cb ctx d =
      if (selfTest dev (bdaComs m id.toNat) d).1 ≠ 0x5A then
        ( EIO, ctx, (selfTest dev (bdaComs m id.toNat) d).2)
      else
        (0, Function.update ctx ⟨id.toNat, h⟩ { rx_cb, port := bdaComs m id.toNat },
          dev.outb (bdaComs m id.toNat + MODEM_CTL_REG) 0x0B
            (selfTest dev (bdaComs m id.toNat) d).2) := by
  unfold serialInit
  rw [dif_pos h]
  simp only [if_neg hport]
  rfl

/-- The call gets to its self-test and reads something else than it has written. -/
def FailsTest (dev : Device δ) (m : Mem) (id : BitVec 64) (d : δ) : Prop :=
  id.toNat < SERIAL_CNT ∧ bdaComs m id.toNat ≠ 0 ∧
    (selfTest dev (bdaComs m id.toNat) d).1 ≠ 0x5A

theorem serialInit_fails {dev : Device δ} {m : Mem} {id : BitVec 64} {d : δ}
    (h : FailsTest dev m id d) (rx_cb : BitVec 64) (ctx : SerialCtxs) :
    serialInit dev m id rx_cb ctx d = ( EIO, ctx, (selfTest dev (bdaComs m id.toNat) d).2) := by
  rw [serialInit_eq dev m id rx_cb ctx d h.1 h.2.1, if_pos h.2.2]

/-- A call that returns an error before its self-test has not touched the device. -/
theorem serialInit_early {dev : Device δ} {m : Mem} {id rx_cb : BitVec 64} {ctx : SerialCtxs}
    {d : δ} (h : ¬ FailsTest dev m id d) (herr : (serialInit dev m id rx_cb ctx d).1 ≠ 0) :
    (serialInit dev m id rx_cb ctx d).2 = (ctx, d) := by
  by_cases hid : id.toNat < SERIAL_CNT
  · by_cases hport : bdaComs m id.toNat = 0
    · unfold serialInit
      simp only [dif_pos hid, if_pos hport]
    · have htest : ¬ (selfTest dev (bdaComs m id.toNat) d).1 ≠ 0x5A :=
        fun hne => h ⟨hid, hport, hne⟩
      rw [serialInit_eq dev m id rx_cb ctx d hid hport, if_neg htest] at herr
      exact absurd rfl herr
  · unfold serialInit
    rw [dif_neg hid]

/-! ### The line -/

theorem foldl_wired (dev : Device δ) (ws : List (BitVec 16 × BitVec 8)) (d : δ × Uart) :
    (ws.foldl (fun d w => dev.wired.outb w.1 w.2 d) d).2 = d.2.writeAll ws := by
  induction ws generalizing d with
  | nil => rfl
  | cons w ws ih => exact ih _

theorem selfTest_wired (dev : Device δ) (port : BitVec 16) (d : δ × Uart) :
    (selfTest dev.wired port d).2.2 = d.2.writeAll (initWrites port) :=
  foldl_wired dev (initWrites port) d

theorem reg_initWrites (u : Uart) (port x : BitVec 16) :
    (u.writeAll (initWrites port)).reg x =
      if x = port then 0x5A else if x = port + 1 then 0x00 else if x = port + 2 then 0xC7
      else if x = port + 3 then 0x03 else if x = port + 4 then 0x1E else u.reg x := by
  simp only [Uart.writeAll, initWrites, List.foldl_cons, List.foldl_nil, Uart.reg_write,
    Function.update_apply, DATA_REG, INTEN_REG, DIV_LOW_REG, DIV_HIGH_REG, INT_FIFO_REG,
    LINE_CTL_REG, MODEM_CTL_REG]
  split_ifs <;> first | rfl | bv_omega

/-- The divisor latch stays selected only in a UART whose line control register is the FIFO control
register of the tested one. -/
theorem latch_initWrites {u : Uart} {q : BitVec 16} (h : u.reg (q + 3) &&& 0x80 = 0)
    (port : BitVec 16) :
    (u.writeAll (initWrites port)).reg (q + 3) &&& 0x80 = 0 ↔ port ≠ q + 1 := by
  rw [reg_initWrites]
  split_ifs
  · exact iff_of_true (by decide) (by bv_omega)
  · exact iff_of_true (by decide) (by bv_omega)
  · exact iff_of_false (by decide) (by bv_omega)
  · exact iff_of_true (by decide) (by bv_omega)
  · exact iff_of_true (by decide) (by bv_omega)
  · exact iff_of_true h (by bv_omega)

/-- In loopback mode stay the tested UART, and one whose modem control register is the data
register of the tested one. -/
theorem loopback_initWrites {u : Uart} {q : BitVec 16} (h : u.reg (q + 4) &&& 0x10 = 0)
    (port : BitVec 16) :
    (u.writeAll (initWrites port)).reg (q + 4) &&& 0x10 = 0 ↔ port ≠ q ∧ port ≠ q + 4 := by
  rw [reg_initWrites]
  split_ifs
  · exact iff_of_false (by decide) (by bv_omega)
  · exact iff_of_true (by decide) (by bv_omega)
  · exact iff_of_true (by decide) (by bv_omega)
  · exact iff_of_true (by decide) (by bv_omega)
  · exact iff_of_false (by decide) (by bv_omega)
  · exact iff_of_true h (by bv_omega)

/-- The self-test takes a UART off the line when its registers are the tested ones. -/
def Clashes (port q : BitVec 16) : Prop := port = q ∨ port = q + 1 ∨ port = q + 4

theorem transmits_initWrites {u : Uart} {q : BitVec 16} (h : u.Transmits q) (port : BitVec 16) :
    (u.writeAll (initWrites port)).Transmits q ↔ ¬ Clashes port q := by
  have hlatch := latch_initWrites h.1 port
  have hloopback := loopback_initWrites h.2 port
  unfold Uart.Transmits Clashes
  rw [hlatch, hloopback, not_or, not_or]
  exact and_left_comm

/-- Printing on a port that transmits puts the text on its line. -/
theorem printLoop_line {dev : Device δ} {fuel : ℕ} {port : BitVec 16}
    {text : BitVec 64 → BitVec 8} {d : δ × Uart} {s : BitVec 64 × (δ × Uart)}
    (ht : d.2.Transmits port) (h : printLoop dev.wired fuel port text d = some s) :
    ∃ n, TextEnds text n ∧ s.2.2.line port = d.2.line port ++ textBytes text n := by
  obtain ⟨n, hends, -, hline⟩ := printLoop_bytes
    (P := fun bs (e : δ × Uart) => e.2.Transmits port ∧ e.2.line port = d.2.line port ++ bs)
    (by
      rintro bs chr e e' ⟨ht, hline⟩ he
      unfold serialPutc at he
      obtain ⟨⟨sts, e₁⟩, hpoll, hout⟩ := Option.bind_eq_some_iff.mp he
      obtain rfl := Option.some.inj hout
      have hsame : e₁.2 = e.2 := Device.wired_poll hpoll
      rw [← hsame] at ht hline
      have hport : port + DATA_REG = port := by simp [DATA_REG]
      rw [hport]
      refine ⟨ht.write chr, ?_⟩
      rw [← List.append_assoc, ← hline]
      exact ht.write_line chr)
    ⟨ht, (List.append_nil _).symm⟩ h
  exact ⟨n, hends, hline⟩

/-! ### Ready ports -/

/-- A port that a context holds and whose UART sends what it is given. -/
structure Ready (ctx : SerialCtxs) (u : Uart) (q : BitVec 16) : Prop where
  nonzero : q ≠ 0
  held : ∃ i, (ctx i).port = q
  transmits : u.Transmits q

theorem serialInit_ready {dev : Device δ} {m : Mem} {id rx_cb : BitVec 64} {ctx : SerialCtxs}
    {d : δ × Uart} (h : (serialInit dev.wired m id rx_cb ctx d).1 = 0) :
    Ready (serialInit dev.wired m id rx_cb ctx d).2.1 (serialInit dev.wired m id rx_cb ctx d).2.2.2
      (bdaComs m id.toNat) := by
  have hio : ( EIO : ℕ) ≠ 0 := by decide
  cases serialInit_result dev.wired m id rx_cb ctx d with
  | inl herr => exact absurd h herr.1
  | inr hok =>
      obtain ⟨-, hport, hid, hctx⟩ := hok
      refine ⟨hport, ⟨⟨id.toNat, hid⟩, by rw [hctx, Function.update_self]⟩, ?_⟩
      rw [serialInit_eq dev.wired m id rx_cb ctx d hid hport] at h ⊢
      split_ifs at h ⊢ with htest
      · exact absurd h hio
      · have hmodem : ∀ x : BitVec 16, (dev.wired.outb (bdaComs m id.toNat + MODEM_CTL_REG) 0x0B
            (selfTest dev.wired (bdaComs m id.toNat) d).2).2.reg x =
            if x = bdaComs m id.toNat + MODEM_CTL_REG then 0x0B
            else (d.2.writeAll (initWrites (bdaComs m id.toNat))).reg x := by
          intro x
          rw [← selfTest_wired dev, ← Function.update_apply]
          rfl
        unfold Uart.Transmits
        rw [hmodem, hmodem, reg_initWrites]
        unfold MODEM_CTL_REG
        simp

/-- A call that returns an error leaves the contexts, and every ready port on its line: what is
printed there later, at any state of the device, arrives. -/
def KeepsLine (dev : Device δ) (m : Mem) (id rx_cb : BitVec 64) (ctx : SerialCtxs)
    (d : δ × Uart) : Prop :=
  ∀ ret ctx' d', serialInit dev.wired m id rx_cb ctx d = (ret, ctx', d') → ret ≠ 0 →
    ctx' = ctx ∧ ∀ q, Ready ctx d.2 q → d'.2.Transmits q ∧
      ∀ (fuel : ℕ) (id' : BitVec 64) (h : id'.toNat < SERIAL_CNT) (text : BitVec 64 → BitVec 8)
        (e : δ) (d'' : δ × Uart), (ctx' ⟨id'.toNat, h⟩).port = q →
        serialPrint dev.wired fuel id' text ctx' (e, d'.2) = some (0, d'') →
        ∃ n, TextEnds text n ∧ d''.2.line q = d'.2.line q ++ textBytes text n

theorem serialPrint_line {dev : Device δ} {fuel : ℕ} {id : BitVec 64}
    (hid : id.toNat < SERIAL_CNT) {text : BitVec 64 → BitVec 8} {ctx : SerialCtxs}
    {d d' : δ × Uart} (ht : d.2.Transmits (ctx ⟨id.toNat, hid⟩).port)
    (hp : serialPrint dev.wired fuel id text ctx d = some (0, d')) :
    ∃ n, TextEnds text n ∧ d'.2.line (ctx ⟨id.toNat, hid⟩).port =
      d.2.line (ctx ⟨id.toNat, hid⟩).port ++ textBytes text n := by
  have hperm : EPERM ≠ 0 := by decide
  unfold serialPrint at hp
  rw [dif_pos hid] at hp
  simp only at hp
  split_ifs at hp
  · exact absurd (Prod.mk.inj (Option.some.inj hp)).1 hperm
  · obtain ⟨s, hs, heq⟩ := Option.map_eq_some_iff.mp hp
    obtain ⟨-, rfl⟩ := Prod.mk.inj heq
    exact printLoop_line ht hs

section keeps

variable {dev : Device δ} {m : Mem} {id rx_cb : BitVec 64} {ctx : SerialCtxs} {d : δ × Uart}

theorem KeepsLine.of_transmits
    (h : ∀ q, Ready ctx d.2 q → (serialInit dev.wired m id rx_cb ctx d).1 ≠ 0 →
      (serialInit dev.wired m id rx_cb ctx d).2.2.2.Transmits q) :
    KeepsLine dev m id rx_cb ctx d := by
  intro ret ctx' d' hinit herr
  have hctx := (serialInit_result dev.wired m id rx_cb ctx d).resolve_right
    (fun hok => herr (by rw [hinit] at hok; exact hok.1))
  rw [hinit] at hctx h
  refine ⟨hctx.2, ?_⟩
  intro q hq
  refine ⟨h q hq herr, ?_⟩
  rintro fuel id' hid text e d'' rfl hp
  exact serialPrint_line (d := (e, d'.2)) hid (h _ hq herr) hp

theorem KeepsLine.spares (h : KeepsLine dev m id rx_cb ctx d) (hfails : FailsTest dev.wired m id d)
    {q : BitVec 16} (hq : Ready ctx d.2 q) : ¬ Clashes (bdaComs m id.toNat) q := by
  have hkept := ((h _ _ _ (serialInit_fails hfails rx_cb ctx) (by decide)).2 q hq).1
  rw [selfTest_wired] at hkept
  exact (transmits_initWrites hq.transmits _).mp hkept

/-- **Failed initialisations** keep what was ready, except in the self-test of such a port. -/
theorem keepsLine_iff : KeepsLine dev m id rx_cb ctx d ↔
    (FailsTest dev.wired m id d → ∀ q, Ready ctx d.2 q → ¬ Clashes (bdaComs m id.toNat) q) := by
  constructor
  · intro h hfails q hq
    exact h.spares hfails hq
  · intro h
    refine KeepsLine.of_transmits ?_
    intro q hq herr
    by_cases hfails : FailsTest dev.wired m id d
    · rw [serialInit_fails hfails, selfTest_wired]
      exact (transmits_initWrites hq.transmits _).mpr (h hfails q hq)
    · rw [serialInit_early hfails herr]
      exact hq.transmits

end keeps

/-- A port whose self-test succeeds once. -/
def fadingSerial : Device ℕ where
  inb port n := if port = 0x3F8 then (if n = 0 then 0x5A else 0x00, n + 1) else (0x20, n)
  outb _ _ n := n
  insw _ k n := (List.replicate k 0, n)
  outsw _ _ n := n
  irq n := (0, n)
  insw_length _ _ _ := List.length_replicate

/-- A first call, from contexts and registers of zeroes. -/
def firstInit : ℕ × SerialCtxs × (ℕ × Uart) :=
  serialInit fadingSerial.wired onePort 0 0 (fun _ => { rx_cb := 0, port := 0 })
    (0, { reg := fun _ => 0, line := fun _ => [] })

/-- The first call succeeds; a second one fails and silences the port that the first has opened. -/
theorem serialInit_silences :
    firstInit.1 = 0 ∧ ¬ KeepsLine fadingSerial onePort 0 0 firstInit.2.1 firstInit.2.2 := by
  have hfirst : firstInit.1 = 0 := by decide
  refine ⟨hfirst, ?_⟩
  intro h
  have hfails : FailsTest fadingSerial.wired onePort 0 firstInit.2.2 :=
    ⟨by decide, by decide, by decide⟩
  exact h.spares hfails (serialInit_ready hfirst) (Or.inl rfl)

end Ziemniak.Kernel
