import Ziemniak.BareMetal.Driver
import Ziemniak.Stage2.BootRuns

/-! # Interrupts during a read

`cdrom_read_sector` again, one port access at a time, so that the drive and the interrupt
handlers can come in between (`readSector`; `cdromReadSector_run` ties it to the function).
Around it is one drive, with the phases of a packet command (`Phase`), and two handlers that
may run at any time.

The driver waits for the flag that both handlers set and looks at no status afterwards.  When
it wakes up while the drive presents its data, the words are taken in the data phase alone
(`readSector_safe`); when it wakes up at another time, for whatever reason a handler ran, it
takes words from a drive that has none (`wake_unsafe`), and the interrupt of a command that
failed is such a reason (`readSector_failed`). -/

namespace Ziemniak.Stage2

open BareMetal

/-- The handlers; their end-of-interrupt commands go to the interrupt controllers. -/
def irq_disk1 (data_ready : BitVec 8) : BitVec 8 := data_ready ||| 0x01

def irq_disk2 (data_ready : BitVec 8) : BitVec 8 := data_ready ||| 0x02

/-! ### The driver -/

/-- Where `cdrom_read_sector` is. -/
inductive Pc
  | setup (r : Request) (todo : List Request)
  | waitBsy
  | waitDrq
  | packet
  | await
  | countHigh
  | countLow (high : BitVec 8)
  | transfer (rd_size : BitVec 16) (left : ℕ) (words : List (BitVec 16))
  | waitEnd (rd_size : BitVec 16) (words : List (BitVec 16))
  | done (r : Reply)
deriving DecidableEq, Repr

/-- From the selection of the drive to the packet command. -/
def startRequests (cd : Cdrom) : List Request :=
  [.outb (cd.io_port + 0x06) (cd.is_slave <<< 4), .inb cd.ctl_port, .inb cd.ctl_port,
    .inb cd.ctl_port, .inb cd.ctl_port, .outb (cd.io_port + 0x01) 0x00,
    .outb (cd.io_port + 0x04) (BitVec.ofNat 8 (CD_SECTOR_SIZE % 256)),
    .outb (cd.io_port + 0x05) (BitVec.ofNat 8 (CD_SECTOR_SIZE / 256)),
    .outb (cd.io_port + 0x07) 0xA0]

def Pc.start (cd : Cdrom) : Pc := .setup .clearFlag (startRequests cd)

/-- The function between two accesses. -/
def Pc.resume : Pc → Answer → Pc
  | .setup _ [], _ => .waitBsy
  | .setup _ (r :: todo), _ => .setup r todo
  | .waitBsy, a => if a.byte &&& 0x80 != 0 then .waitBsy else .waitDrq
  | .waitDrq, a =>
      if a.byte &&& 0x8 == 0 && a.byte &&& 0x1 == 0 then .waitDrq
      else if a.byte &&& 0x01 ≠ 0 then .done { rd_size := 0, words := [] }
      else .packet
  | .packet, _ => .await
  | .await, a => if a.byte = 0 then .await else .countHigh
  | .countHigh, a => .countLow a.byte
  | .countLow high, a =>
      .transfer (registerPair high a.byte) ((registerPair high a.byte).toNat / 2) []
  | .transfer rd_size left words, a =>
      if left ≤ a.words.length then .waitEnd rd_size (words ++ a.words)
      else .transfer rd_size (left - a.words.length) (words ++ a.words)
  | .waitEnd rd_size words, a =>
      if a.byte &&& 0x88 != 0 then .waitEnd rd_size words else .done { rd_size, words }
  | .done r, _ => .done r

section resume

variable (v : BitVec 8)

theorem resume_waitBsy : Pc.resume .waitBsy (.ofByte v) =
    if v &&& 0x80 != 0 then .waitBsy else .waitDrq := rfl

theorem resume_waitDrq : Pc.resume .waitDrq (.ofByte v) =
    if v &&& 0x8 == 0 && v &&& 0x1 == 0 then .waitDrq
    else if v &&& 0x01 ≠ 0 then .done { rd_size := 0, words := [] }
    else .packet := rfl

theorem resume_await : Pc.resume .await (.ofByte v) = if v = 0 then .await else .countHigh := rfl

theorem resume_countLow (high : BitVec 8) : Pc.resume (.countLow high) (.ofByte v) =
    .transfer (registerPair high v) ((registerPair high v).toNat / 2) [] := rfl

theorem resume_transfer (rd_size : BitVec 16) (left : ℕ) (words ws : List (BitVec 16)) :
    Pc.resume (.transfer rd_size left words) (.ofWords ws) =
      if left ≤ ws.length then .waitEnd rd_size (words ++ ws)
      else .transfer rd_size (left - ws.length) (words ++ ws) := rfl

theorem resume_waitEnd (rd_size : BitVec 16) (words : List (BitVec 16)) :
    Pc.resume (.waitEnd rd_size words) (.ofByte v) =
      if v &&& 0x88 != 0 then .waitEnd rd_size words else .done { rd_size, words } := rfl

end resume

def Pc.request (cd : Cdrom) (lba : BitVec 32) : Pc → Option Request
  | .setup r _ => some r
  | .waitBsy => some (.inb (cd.io_port + 0x07))
  | .waitDrq => some (.inb (cd.io_port + 0x07))
  | .packet => some (.outsw cd.io_port (readCmd lba))
  | .await => some .readFlag
  | .countHigh => some (.inb (cd.io_port + 0x05))
  | .countLow _ => some (.inb (cd.io_port + 0x04))
  | .transfer _ left _ => some (.insw cd.io_port left)
  | .waitEnd _ _ => some (.inb (cd.io_port + 0x07))
  | .done _ => none

/-- `cdrom_read_sector` as a driver. -/
def readSector (cd : Cdrom) (lba : BitVec 32) : Driver Pc where
  request := Pc.request cd lba
  resume := Pc.resume

section device

variable {δ : Type} {dev : Device δ} {cd : Cdrom} {lba : BitVec 32}

theorem startPacket_run (flag : BitVec 8) (d : δ) :
    Run (readSector cd lba) dev.env anyStep ⟨.start cd, flag, d⟩
      ⟨.waitBsy, 0, startPacket dev cd d⟩ := by
  refine Run.clearFlag rfl ?_
  refine Run.outb rfl ?_
  refine Run.inb rfl ?_
  refine Run.inb rfl ?_
  refine Run.inb rfl ?_
  refine Run.inb rfl ?_
  refine Run.outb rfl ?_
  refine Run.outb rfl ?_
  refine Run.outb rfl ?_
  exact Run.outb rfl (Run.refl _)

theorem countHigh_run (lba : BitVec 32) (flag : BitVec 8) {last : BitVec 8} {fuel : ℕ}
    {d d' : δ} {high low : BitVec 8 × δ} {data : List (BitVec 16) × δ}
    (hhigh : dev.inb (cd.io_port + 0x05) d = high)
    (hlow : dev.inb (cd.io_port + 0x04) high.2 = low)
    (hdata : dev.insw cd.io_port ((registerPair high.1 low.1).toNat / 2) low.2 = data)
    (hend : dev.poll fuel (cd.io_port + 0x07) (fun sts => sts &&& 0x88 != 0) data.2 =
      some (last, d')) :
    Run (readSector cd lba) dev.env anyStep ⟨.countHigh, flag, d⟩
      ⟨.done { rd_size := registerPair high.1 low.1, words := data.1 }, flag, d'⟩ := by
  have hlen : (registerPair high.1 low.1).toNat / 2 ≤ data.1.length := by
    rw [← hdata, dev.insw_length]
  have htaken : Pc.resume (.transfer (registerPair high.1 low.1)
      ((registerPair high.1 low.1).toNat / 2) []) (.ofWords data.1) =
      .waitEnd (registerPair high.1 low.1) data.1 := if_pos hlen
  have hdone : Pc.resume (.waitEnd (registerPair high.1 low.1) data.1) (.ofByte last) =
      .done { rd_size := registerPair high.1 low.1, words := data.1 } :=
    if_neg (Bool.eq_false_iff.mp (Device.poll_not_busy hend))
  have hlast : Run (readSector cd lba) dev.env anyStep
      ⟨.waitEnd (registerPair high.1 low.1) data.1, flag, data.2⟩
      ⟨Pc.resume (.waitEnd (registerPair high.1 low.1) data.1) (.ofByte last), flag, d'⟩ :=
    Run.poll rfl (fun _ hb => if_pos hb) hend (Run.refl _)
  rw [hdone, ← htaken, ← hdata] at hlast
  have hlow' := Run.insw (D := readSector cd lba) (p := .transfer (registerPair high.1 low.1)
      ((registerPair high.1 low.1).toNat / 2) []) rfl hlast
  rw [hdata] at hlow'
  subst hlow
  subst hhigh
  exact Run.inb rfl (Run.inb rfl hlow')

/-- Against a device, what the function returns is where a run of the driver ends. -/
theorem cdromReadSector_run {fuel : ℕ} {d d' : δ} {r : Reply}
    (h : cdromReadSector dev fuel cd lba d = some (r, d')) (flag : BitVec 8) : ∃ flag',
    Run (readSector cd lba) dev.env anyStep ⟨.start cd, flag, d⟩ ⟨.done r, flag', d'⟩ := by
  unfold cdromReadSector at h
  simp only [Option.bind_eq_bind, Option.bind_eq_some_iff, Option.pure_def] at h
  obtain ⟨⟨v, d₁⟩, hbsy, ⟨sts, d₂⟩, hdrq, h⟩ := h
  have hwaitDrq : Pc.resume .waitBsy (.ofByte v) = .waitDrq :=
    if_neg (Bool.eq_false_iff.mp (Device.poll_not_busy hbsy))
  have hstop : Pc.resume .waitDrq (.ofByte sts) =
      if sts &&& 0x01 ≠ 0 then .done { rd_size := 0, words := [] } else .packet :=
    if_neg (Bool.eq_false_iff.mp (Device.poll_not_busy hdrq))
  have hto : ∀ {u}, Run (readSector cd lba) dev.env anyStep
      ⟨Pc.resume .waitDrq (.ofByte sts), 0, d₂⟩ u →
      Run (readSector cd lba) dev.env anyStep ⟨.start cd, flag, d⟩ u := by
    intro u hu
    refine (startPacket_run flag d).trans (Run.poll rfl (fun _ hb => if_pos hb) hbsy ?_)
    have hpoll := Run.poll (D := readSector cd lba) (p := .waitDrq) rfl
      (fun _ hb => if_pos hb) hdrq hu
    rw [← hwaitDrq] at hpoll
    exact hpoll
  rw [hstop] at hto
  split_ifs at h hto with herr
  · obtain ⟨rfl, rfl⟩ := Prod.mk.inj (Option.some.inj h)
    exact ⟨0, hto (Run.refl _)⟩
  · obtain ⟨⟨f, d₃⟩, hflag, h⟩ := Option.bind_eq_some_iff.mp h
    obtain ⟨⟨last, d₄⟩, hend, h⟩ := Option.bind_eq_some_iff.mp h
    obtain ⟨rfl, rfl⟩ := Prod.mk.inj (Option.some.inj h)
    have hwake : Pc.resume .await (.ofByte f) = .countHigh :=
      if_neg (Device.awaitFlag_ne_zero hflag)
    have hrest := countHigh_run lba f rfl rfl rfl hend
    rw [← hwake] at hrest
    exact ⟨f, hto (Run.outsw rfl (Run.awaitFlag rfl hflag hrest))⟩

end device

/-! ### The drive -/

/-- What the addressed drive does.  `other` is whatever an earlier command left behind;
`data left` presents a block of which `left` words were not taken yet, and `failed` is a command
that ended with the error bit after its packet was accepted. -/
inductive Phase
  | other
  | accepting
  | packet
  | refused
  | busy
  | data (left : ℕ)
  | complete
  | failed
deriving DecidableEq, Repr

/-- The status bytes of a phase, by their BSY, DRQ and ERR bits.  They mean nothing while the
drive has not seen the command, and behind the last word of a block. -/
def Phase.Shows : Phase → BitVec 8 → Prop
  | .other, _ => True
  | .accepting, _ => True
  | .packet, sts => sts &&& 0x89 = 0x08
  | .refused, sts => sts &&& 0x89 = 0x01
  | .busy, sts => sts &&& 0x80 = 0x80
  | .data 0, _ => True
  | .data (_ + 1), sts => sts &&& 0x89 = 0x08
  | .complete, sts => sts &&& 0x89 = 0
  | .failed, sts => sts &&& 0x89 = 0x01

/-- The drive and its byte count registers. -/
structure Atapi where
  phase : Phase
  count : BitVec 16
deriving DecidableEq, Repr

/-- The words of a block whose byte count is `count`. -/
def blockWords (count : BitVec 16) : ℕ := (count.toNat + 1) / 2

/-- A write to one of the drive's ports. -/
def Atapi.written (cd : Cdrom) (port : BitVec 16) (v : BitVec 8) (e : Atapi) : Atapi :=
  if port = cd.io_port + 0x07 ∧ v = 0xA0 then { e with phase := .accepting }
  else if port = cd.io_port + 0x04 then { e with count := (e.count >>> 8).setWidth 8 ++ v }
  else if port = cd.io_port + 0x05 then { e with count := v ++ e.count.setWidth 8 }
  else e

/-- The bytes a port can show. -/
def Atapi.Shows (cd : Cdrom) (port : BitVec 16) (v : BitVec 8) (e : Atapi) : Prop :=
  if port = cd.io_port + 0x07 then e.phase.Shows v
  else if port = cd.io_port + 0x05 then v = (e.count >>> 8).setWidth 8
  else if port = cd.io_port + 0x04 then v = e.count.setWidth 8
  else True

/-- The drive when a word is taken; outside a data block there is nothing to take. -/
def Atapi.taken (e : Atapi) : Atapi :=
  match e.phase with
  | .data (left + 1) => { e with phase := .data left }
  | _ => e

/-- The drive when the packet arrives. -/
def Atapi.sent (e : Atapi) : Atapi :=
  if e.phase = .packet then { e with phase := .busy } else e

/-- The drive serves the ports; a string instruction reads one word after the other. -/
inductive Atapi.Serve (cd : Cdrom) : Request → Atapi → Answer → Atapi → Prop
  | outb (port : BitVec 16) (v : BitVec 8) (e : Atapi) :
      Serve cd (.outb port v) e .done (e.written cd port v)
  | inb {port : BitVec 16} {v : BitVec 8} {e : Atapi} (h : e.Shows cd port v) :
      Serve cd (.inb port) e (.ofByte v) e
  | outsw (port : BitVec 16) (ws : List (BitVec 16)) (e : Atapi) :
      Serve cd (.outsw port ws) e .done e.sent
  | inswNone (port : BitVec 16) (e : Atapi) : Serve cd (.insw port 0) e (.ofWords []) e
  | inswWord (port : BitVec 16) (n : ℕ) (w : BitVec 16) (e : Atapi) :
      Serve cd (.insw port (n + 1)) e (.ofWords [w]) e.taken

/-- What the drive does by itself.  It leaves a data block only when all its words were taken,
and its byte count is fixed from there and from the end of the command on. -/
inductive Atapi.Acts : Atapi → Atapi → Prop
  | ask (count : BitVec 16) : Acts ⟨.accepting, count⟩ ⟨.packet, count⟩
  | refuse (count : BitVec 16) : Acts ⟨.accepting, count⟩ ⟨.refused, count⟩
  | present (count : BitVec 16) {count' : BitVec 16} (h : count' ≠ 0) :
      Acts ⟨.busy, count⟩ ⟨.data (blockWords count'), count'⟩
  | next (count : BitVec 16) : Acts ⟨.data 0, count⟩ ⟨.busy, count⟩
  | complete {p : Phase} (h : p = .busy ∨ p = .data 0) (count count' : BitVec 16) :
      Acts ⟨p, count⟩ ⟨.complete, count'⟩
  | fail {p : Phase} (h : p = .busy ∨ p = .data 0) (count count' : BitVec 16) :
      Acts ⟨p, count⟩ ⟨.failed, count'⟩
  | registers {p : Phase} (hdata : ∀ left, p ≠ .data left) (hfailed : p ≠ .failed)
      (count count' : BitVec 16) : Acts ⟨p, count⟩ ⟨p, count'⟩

/-- The drive with both handlers: either may run at any time, for whatever reason. -/
def atapi (cd : Cdrom) : Env Atapi where
  serve := Atapi.Serve cd
  act := Atapi.Acts
  interrupt f e e' := (f = irq_disk1 ∨ f = irq_disk2) ∧ e' = e

/-! ### Safe runs -/

/-- The words this call has taken. -/
def Pc.words : Pc → List (BitVec 16)
  | .transfer _ _ words => words
  | .waitEnd _ words => words
  | .done r => r.words
  | _ => []

/-- A word is taken next only in the data phase, and a command that fails after its packet was
accepted takes nothing and returns 0. -/
def Safe (s : Sys Pc Atapi) : Prop :=
  (∀ rd_size left words, s.driver = .transfer rd_size (left + 1) words →
    ∃ n, s.env.phase = .data (n + 1)) ∧
  (s.env.phase = .failed → s.driver.words = [] ∧ ∀ r, s.driver = .done r → r.rd_size = 0)

/-- The command failed and left no byte count. -/
def Atapi.Void (e : Atapi) : Prop := e.phase = .failed ∧ e.count = 0

/-- What is asked of a step: when the driver finds the flag set, the drive presents its data or
has failed without a byte count, and the drive does not fail once words were taken.  Handlers
run when they like. -/
def Timely : StepCond Pc Atapi
  | .driver, s, _ => s.driver = .await → s.flag ≠ 0 →
      (∃ n, s.env.phase = .data (n + 1)) ∨ s.env.Void
  | .env, s, s' => s'.env.phase = .failed → s.env.phase ≠ .failed → s.driver.words = []
  | .interrupt, _, _ => True

/-! ### The invariant -/

/-- No packet was accepted yet. -/
def Atapi.Early (e : Atapi) : Prop :=
  e.phase = .other ∨ e.phase = .accepting ∨ e.phase = .packet ∨ e.phase = .refused

/-- A whole block is there to be taken. -/
def Atapi.Block (e : Atapi) : Prop := e.phase = .data (blockWords e.count) ∧ e.count ≠ 0

/-- An access of the start of a command. -/
def Plain : Request → Prop
  | .outb _ _ | .inb _ => True
  | _ => False

/-- What holds of the drive at each place of the driver. -/
def Inv : Pc → Atapi → Prop
  | .setup r todo, e => e.Early ∧ (r = .clearFlag ∨ Plain r) ∧ ∀ q ∈ todo, Plain q
  | .waitBsy, e | .waitDrq, e | .packet, e => e.Early
  | .await, e => ∀ left, e.phase = .data left → e.Block
  | .countHigh, e => e.Block ∨ e.Void
  | .countLow high, e => (e.Block ∨ e.Void) ∧ high = (e.count >>> 8).setWidth 8
  | .transfer rd_size left words, e => (∃ n, e.phase = .data (n + 1) ∧ left ≤ n + 1) ∨
      (e.phase = .failed ∧ rd_size = 0 ∧ left = 0 ∧ words = [])
  | .waitEnd rd_size words, e => (e.phase = .failed → rd_size = 0 ∧ words = []) ∧
      (words = [] → (∃ n, e.phase = .data (n + 1)) ∨ (e.phase = .failed ∧ rd_size = 0))
  | .done r, e => (e.phase = .failed → r.rd_size = 0 ∧ r.words = []) ∧
      (r.words = [] → r.rd_size = 0)

theorem Atapi.Early.not_data {e : Atapi} (h : e.Early) (n : ℕ) : e.phase ≠ .data n := by
  unfold Early at h
  intro hf
  rw [hf] at h
  simp at h

theorem blockWords_pos {count : BitVec 16} (h : count ≠ 0) : 0 < blockWords count := by
  have hpos : 0 < count.toNat := Nat.pos_of_ne_zero (fun h0 => h (BitVec.eq_of_toNat_eq h0))
  unfold blockWords
  omega

theorem Atapi.Block.data {e : Atapi} (h : e.Block) : ∃ n, e.phase = .data (n + 1) ∧
    e.count.toNat / 2 ≤ n + 1 := by
  have hpos := blockWords_pos h.2
  refine ⟨blockWords e.count - 1, ?_⟩
  rw [Nat.sub_add_cancel hpos]
  refine ⟨h.1, ?_⟩
  unfold blockWords
  omega

theorem Inv.safe {pc : Pc} {e : Atapi} (h : Inv pc e) (flag : BitVec 8) :
    Safe ⟨pc, flag, e⟩ := by
  constructor
  · rintro rd_size left words hpc
    obtain rfl : pc = .transfer rd_size (left + 1) words := hpc
    rcases h with ⟨n, hn, -⟩ | ⟨-, -, h0, -⟩
    · exact ⟨n, hn⟩
    · cases h0
  · intro hf
    cases pc with
    | transfer rd_size left words =>
        rcases h with ⟨n, hn, -⟩ | ⟨-, -, -, hw⟩
        · rw [show e.phase = .failed from hf] at hn
          cases hn
        · exact ⟨hw, fun r hr => by cases hr⟩
    | waitEnd rd_size words => exact ⟨(h.1 hf).2, fun r hr => by cases hr⟩
    | done r =>
        refine ⟨(h.1 hf).2, ?_⟩
        intro r' hr
        obtain rfl := Pc.done.inj hr
        exact (h.1 hf).1
    | _ => exact ⟨rfl, fun r hr => by cases hr⟩

/-! ### What one step preserves -/

section steps

variable {cd : Cdrom} {lba : BitVec 32} {pc : Pc} {e e' : Atapi}

theorem Atapi.Acts.early (h : Acts e e') (he : e.Early) : e'.Early := by
  cases h with
  | ask => exact Or.inr (Or.inr (Or.inl rfl))
  | refuse => exact Or.inr (Or.inr (Or.inr rfl))
  | present _ _ => exact absurd he (by simp [Early])
  | next _ => exact absurd he (by simp [Early])
  | complete hp _ _ => rcases hp with rfl | rfl <;> exact absurd he (by simp [Early])
  | fail hp _ _ => rcases hp with rfl | rfl <;> exact absurd he (by simp [Early])
  | registers _ _ _ _ => exact he

/-- A block is kept until its last word was taken, and a failure for good. -/
theorem Atapi.Acts.moves (h : Acts e e') :
    (∀ n, e.phase ≠ .data (n + 1)) ∧ e.phase ≠ .failed := by
  cases h with
  | complete hp _ _ => rcases hp with rfl | rfl <;> simp
  | fail hp _ _ => rcases hp with rfl | rfl <;> simp
  | registers hdata hfailed _ _ => exact ⟨fun n => hdata (n + 1), hfailed⟩
  | _ => simp

theorem Atapi.Acts.block (h : Acts e e') {left : ℕ} (hd : e'.phase = .data left) : e'.Block := by
  cases h with
  | present _ hne => exact ⟨rfl, hne⟩
  | registers hdata _ _ _ => exact absurd hd (hdata left)
  | _ => cases hd

theorem Inv.act (hi : Inv pc e) (h : Atapi.Acts e e')
    (ht : e'.phase = .failed → e.phase ≠ .failed → pc.words = []) : Inv pc e' := by
  obtain ⟨hdata, hfailed⟩ := h.moves
  have hnone : ¬ (e.Block ∨ e.Void) := by
    rintro (hb | hv)
    · obtain ⟨n, hn, -⟩ := hb.data
      exact hdata n hn
    · exact hfailed hv.1
  cases pc with
  | setup r todo => exact ⟨h.early hi.1, hi.2⟩
  | waitBsy => exact h.early hi
  | waitDrq => exact h.early hi
  | packet => exact h.early hi
  | await => exact fun left hd => h.block hd
  | countHigh => exact absurd hi hnone
  | countLow high => exact absurd hi.1 hnone
  | transfer rd_size left words =>
      rcases hi with ⟨n, hn, -⟩ | ⟨hf, -⟩
      · exact absurd hn (hdata n)
      · exact absurd hf hfailed
  | waitEnd rd_size words =>
      have hw : words ≠ [] := by
        intro hw
        rcases hi.2 hw with ⟨n, hn⟩ | ⟨hf, -⟩
        · exact hdata n hn
        · exact hfailed hf
      exact ⟨fun hf => absurd (ht hf hfailed) hw, fun hw' => absurd hw' hw⟩
  | done r =>
      refine ⟨?_, hi.2⟩
      intro hf
      have hw : r.words = [] := ht hf hfailed
      exact ⟨hi.2 hw, hw⟩

theorem Atapi.Early.written (h : e.Early) (port : BitVec 16) (v : BitVec 8) :
    (e.written cd port v).Early := by
  unfold Atapi.written
  split_ifs
  · exact Or.inr (Or.inl rfl)
  · exact h
  · exact h
  · exact h

theorem Atapi.shows_status {v : BitVec 8} (h : e.Shows cd (cd.io_port + 0x07) v) :
    e.phase.Shows v := by
  unfold Atapi.Shows at h
  rw [if_pos rfl] at h
  exact h

theorem Atapi.shows_high {v : BitVec 8} (h : e.Shows cd (cd.io_port + 0x05) v) :
    v = (e.count >>> 8).setWidth 8 := by
  simpa [Atapi.Shows] using h

theorem Atapi.shows_low {v : BitVec 8} (h : e.Shows cd (cd.io_port + 0x04) v) :
    v = e.count.setWidth 8 := by
  simpa [Atapi.Shows] using h

theorem not_drq {v : BitVec 8} (h : v &&& 0x88 = 0) : v &&& 0x89 ≠ 0x08 := by
  intro h'
  have e : v &&& 0x89 &&& 0x88 = v &&& 0x88 := by rw [BitVec.and_assoc]; rfl
  rw [h', h] at e
  exact absurd e (by decide)

theorem Inv.serve_setup {r : Request} {todo : List Request} {a : Answer}
    (hi : Inv (.setup r todo) e) (h : Atapi.Serve cd r e a e') :
    Inv (Pc.resume (.setup r todo) a) e' := by
  obtain ⟨he, hr, htodo⟩ := hi
  have he' : e'.Early := by
    cases h with
    | outb port v => exact he.written port v
    | inb _ => exact he
    | outsw => simp [Plain] at hr
    | inswNone => simp [Plain] at hr
    | inswWord => simp [Plain] at hr
  cases todo with
  | nil => exact he'
  | cons q todo =>
      obtain ⟨hq, hrest⟩ := List.forall_mem_cons.mp htodo
      exact ⟨he', Or.inr hq, hrest⟩

theorem Inv.serve_transfer {rd_size port : BitVec 16} {left : ℕ} {words : List (BitVec 16)}
    {a : Answer} (hi : Inv (.transfer rd_size left words) e)
    (h : Atapi.Serve cd (.insw port left) e a e') :
    Inv (Pc.resume (.transfer rd_size left words) a) e' := by
  cases h with
  | inswNone =>
      rw [resume_transfer, if_pos (Nat.zero_le _), List.append_nil]
      rcases hi with ⟨n, hn, -⟩ | ⟨hf, h0, -, hw⟩
      · refine ⟨?_, fun _ => Or.inl ⟨n, hn⟩⟩
        intro hf
        rw [hn] at hf
        cases hf
      · exact ⟨fun _ => ⟨h0, hw⟩, fun _ => Or.inr ⟨hf, h0⟩⟩
  | inswWord port k w =>
      rcases hi with ⟨n, hn, hle⟩ | ⟨-, -, h0, -⟩
      · have htaken : e.taken = { e with phase := .data n } := by
          unfold Atapi.taken
          rw [hn]
        rw [htaken]
        cases k with
        | zero =>
            rw [resume_transfer, if_pos (by simp)]
            exact ⟨fun hf => (by cases hf), fun hw => absurd hw (by simp)⟩
        | succ k =>
            rw [resume_transfer, if_neg (by simp)]
            refine Or.inl ⟨n - 1, ?_, by simp only [List.length_singleton]; omega⟩
            rw [Nat.sub_add_cancel (by omega)]
      · cases h0

theorem Inv.serve (hi : Inv pc e) {r : Request} {a : Answer}
    (hr : Pc.request cd lba pc = some r) (h : Atapi.Serve cd r e a e') :
    Inv (pc.resume a) e' := by
  cases pc with
  | setup r' todo =>
      obtain rfl := Option.some.inj hr
      exact hi.serve_setup h
  | waitBsy =>
      obtain rfl := Option.some.inj hr
      cases h
      rw [resume_waitBsy]
      split_ifs
      · exact hi
      · exact hi
  | waitDrq =>
      obtain rfl := Option.some.inj hr
      cases h
      rw [resume_waitDrq]
      split_ifs
      · exact hi
      · exact ⟨fun _ => ⟨rfl, rfl⟩, fun _ => rfl⟩
      · exact hi
  | packet =>
      obtain rfl := Option.some.inj hr
      cases h
      have hsent : ∀ left, e.sent.phase ≠ .data left := by
        unfold Atapi.sent
        split_ifs
        · simp
        · exact hi.not_data
      exact fun left hd => absurd hd (hsent left)
  | await =>
      obtain rfl := Option.some.inj hr
      cases h
  | countHigh =>
      obtain rfl := Option.some.inj hr
      cases h with
      | inb hv => exact ⟨hi, Atapi.shows_high hv⟩
  | countLow high =>
      obtain rfl := Option.some.inj hr
      cases h with
      | @inb _ v _ hv =>
          obtain ⟨hpresent, rfl⟩ := hi
          have hcount : registerPair ((e.count >>> 8).setWidth 8) v = e.count := by
            rw [Atapi.shows_low hv, registerPair_split]
          rw [resume_countLow, hcount]
          rcases hpresent with hb | ⟨hf, h0⟩
          · exact Or.inl hb.data
          · exact Or.inr ⟨hf, h0, by rw [h0]; rfl, rfl⟩
  | transfer rd_size left words =>
      obtain rfl := Option.some.inj hr
      exact hi.serve_transfer h
  | waitEnd rd_size words =>
      obtain rfl := Option.some.inj hr
      cases h with
      | @inb _ v _ hv =>
          rw [resume_waitEnd]
          split_ifs with hbusy
          · exact hi
          · refine ⟨hi.1, ?_⟩
            intro hw
            rcases hi.2 hw with ⟨n, hn⟩ | ⟨-, h0⟩
            · have hs := Atapi.shows_status hv
              rw [hn] at hs
              exact absurd hs (not_drq (by simpa using hbusy))
            · exact h0
  | done r' => cases hr

theorem Inv.clearFlag (hi : Inv pc e) (hr : Pc.request cd lba pc = some .clearFlag) :
    Inv (pc.resume .done) e := by
  cases pc with
  | setup r todo =>
      obtain ⟨he, -, htodo⟩ := hi
      cases todo with
      | nil => exact he
      | cons q todo =>
          obtain ⟨hq, hrest⟩ := List.forall_mem_cons.mp htodo
          exact ⟨he, Or.inr hq, hrest⟩
  | _ => cases hr

theorem Inv.readFlag (hi : Inv pc e) (hr : Pc.request cd lba pc = some .readFlag)
    {flag : BitVec 8}
    (ht : pc = .await → flag ≠ 0 → (∃ n, e.phase = .data (n + 1)) ∨ e.Void) :
    Inv (pc.resume (.ofByte flag)) e := by
  cases pc with
  | setup r todo =>
      obtain rfl := Option.some.inj hr
      simp [Inv, Plain] at hi
  | await =>
      rw [resume_await]
      split_ifs with h0
      · exact hi
      · rcases ht rfl h0 with ⟨n, hn⟩ | hv
        · exact Or.inl (hi _ hn)
        · exact Or.inr hv
  | _ => cases hr

end steps

/-! ### Every run -/

theorem start_inv (cd : Cdrom) (count : BitVec 16) : Inv (.start cd) ⟨.other, count⟩ := by
  refine ⟨Or.inl rfl, Or.inl rfl, ?_⟩
  unfold startRequests
  simp [Plain]

theorem step_inv {cd : Cdrom} {lba : BitVec 32} {a : Act} {s s' : Sys Pc Atapi}
    (hi : Inv s.driver s.env) (h : Step (readSector cd lba) (atapi cd) a s s')
    (ht : Timely a s s') : Inv s'.driver s'.env := by
  cases h with
  | serve hr h => exact hi.serve hr h
  | clearFlag hr => exact hi.clearFlag hr
  | readFlag hr => exact hi.readFlag hr ht
  | act h => exact hi.act h ht
  | interrupt h =>
      obtain ⟨-, rfl⟩ := h
      exact hi

/-- **Interrupts.**  In every run of `cdrom_read_sector`, with the drive and the handlers coming
in between in any order, in which the wake-up comes in time, every word is taken in the data
phase of the command, and a command that fails takes nothing and returns 0. -/
theorem readSector_safe {cd : Cdrom} {lba : BitVec 32} {flag : BitVec 8} {count : BitVec 16}
    {s : Sys Pc Atapi} (h : Run (readSector cd lba) (atapi cd) Timely
      ⟨.start cd, flag, ⟨.other, count⟩⟩ s) : Safe s :=
  (h.invariant (fun _ _ _ hi hstep ht => step_inv hi hstep ht) (start_inv cd count)).safe s.flag

/-! ### Runs with the drive -/

/-- Nothing interrupts the driver, which does not wake up, and the drive does not fail. -/
def Undisturbed : StepCond Pc Atapi
  | .driver, s, _ => s.driver ≠ .await
  | .env, _, s' => s'.env.phase ≠ .failed
  | .interrupt, _, _ => False

section runs

variable {cd : Cdrom} {lba : BitVec 32} {p : Pc} {flag : BitVec 8} {e e' : Atapi}
  {u : Sys Pc Atapi}

theorem Undisturbed.timely {a : Act} {s t : Sys Pc Atapi} (h : Undisturbed a s t) :
    Timely a s t := by
  cases a with
  | driver => exact fun hs => absurd hs h
  | env => exact fun hf => absurd hf h
  | interrupt => trivial

theorem atapi_driver {s t : Sys Pc Atapi} (hs : s.driver ≠ .await)
    (h : Step (readSector cd lba) (atapi cd) .driver s t)
    (hu : Run (readSector cd lba) (atapi cd) Undisturbed t u) :
    Run (readSector cd lba) (atapi cd) Undisturbed s u := Run.head h hs hu

theorem atapi_outb {port : BitVec 16} {v : BitVec 8}
    (hr : p.request cd lba = some (.outb port v))
    (h : Run (readSector cd lba) (atapi cd) Undisturbed
      ⟨p.resume .done, flag, e.written cd port v⟩ u) :
    Run (readSector cd lba) (atapi cd) Undisturbed ⟨p, flag, e⟩ u := by
  refine atapi_driver ?_ (.serve (s := ⟨p, flag, e⟩) hr (.outb port v e)) h
  rintro rfl
  cases hr

theorem atapi_inb (v : BitVec 8) {port : BitVec 16} (hr : p.request cd lba = some (.inb port))
    (hv : e.Shows cd port v)
    (h : Run (readSector cd lba) (atapi cd) Undisturbed ⟨p.resume (.ofByte v), flag, e⟩ u) :
    Run (readSector cd lba) (atapi cd) Undisturbed ⟨p, flag, e⟩ u := by
  refine atapi_driver ?_ (.serve (s := ⟨p, flag, e⟩) hr (.inb hv)) h
  rintro rfl
  cases hr

theorem atapi_outsw {port : BitVec 16} {ws : List (BitVec 16)}
    (hr : p.request cd lba = some (.outsw port ws))
    (h : Run (readSector cd lba) (atapi cd) Undisturbed ⟨p.resume .done, flag, e.sent⟩ u) :
    Run (readSector cd lba) (atapi cd) Undisturbed ⟨p, flag, e⟩ u := by
  refine atapi_driver ?_ (.serve (s := ⟨p, flag, e⟩) hr (.outsw port ws e)) h
  rintro rfl
  cases hr

theorem atapi_act (ha : Atapi.Acts e e') (hf : e'.phase ≠ .failed)
    (h : Run (readSector cd lba) (atapi cd) Undisturbed ⟨p, flag, e'⟩ u) :
    Run (readSector cd lba) (atapi cd) Undisturbed ⟨p, flag, e⟩ u :=
  Run.head (.act (s := ⟨p, flag, e⟩) ha) hf h

theorem written_other {port : BitVec 16} (h7 : port ≠ cd.io_port + 0x07)
    (h4 : port ≠ cd.io_port + 0x04) (h5 : port ≠ cd.io_port + 0x05) (v : BitVec 8) :
    e.written cd port v = e := by
  unfold Atapi.written
  rw [if_neg (fun h => h7 h.1), if_neg h4, if_neg h5]

theorem written_start (cd : Cdrom) (p : Phase) (count : BitVec 16) :
    ((Atapi.written cd (cd.io_port + 0x04) (BitVec.ofNat 8 (CD_SECTOR_SIZE % 256))
      ⟨p, count⟩).written cd (cd.io_port + 0x05)
      (BitVec.ofNat 8 (CD_SECTOR_SIZE / 256))).written cd (cd.io_port + 0x07) 0xA0 =
      ⟨.accepting, 0x0800⟩ := by
  have hlow : ((count >>> 8).setWidth 8 ++ 0#8 : BitVec 16).setWidth 8 = 0#8 :=
    setWidth_append_low _ _
  have h4 : BitVec.ofNat 8 (CD_SECTOR_SIZE % 256) = 0#8 := rfl
  simp [Atapi.written, h4, hlow]
  rfl

theorem packet_run (cd : Cdrom) (lba : BitVec 32) (flag : BitVec 8) (count : BitVec 16) :
    Run (readSector cd lba) (atapi cd) Undisturbed ⟨.start cd, flag, ⟨.other, count⟩⟩
      ⟨.await, 0, ⟨.busy, 0x0800⟩⟩ := by
  have hctl : ∃ v, Atapi.Shows cd cd.ctl_port v ⟨.other, count⟩ := by
    unfold Atapi.Shows
    split_ifs
    · exact ⟨0, trivial⟩
    · exact ⟨_, rfl⟩
    · exact ⟨_, rfl⟩
    · exact ⟨0, trivial⟩
  obtain ⟨v, hv⟩ := hctl
  have hstatus : Atapi.Shows cd (cd.io_port + 0x07) 0x48 ⟨.packet, 0x0800⟩ := by
    unfold Atapi.Shows
    rw [if_pos rfl]
    exact (by decide : (0x48 : BitVec 8) &&& 0x89 = 0x08)
  refine atapi_driver (by simp [Pc.start]) (.clearFlag rfl) ?_
  refine atapi_outb rfl ?_
  rw [written_other (by simp) (by simp) (by simp)]
  refine atapi_inb v rfl hv (atapi_inb v rfl hv (atapi_inb v rfl hv (atapi_inb v rfl hv ?_)))
  refine atapi_outb rfl ?_
  rw [written_other (by simp) (by simp) (by simp)]
  refine atapi_outb rfl (atapi_outb rfl (atapi_outb rfl ?_))
  rw [written_start]
  refine atapi_act (.ask _) (by simp) ?_
  refine atapi_inb 0x48 rfl hstatus (atapi_inb 0x48 rfl hstatus ?_)
  exact atapi_outsw rfl (Run.refl _)

/-- From the wake-up the driver goes on with the byte count, whatever the drive does. -/
theorem count_run (cd : Cdrom) (lba : BitVec 32) (flag : BitVec 8) (e : Atapi) :
    Run (readSector cd lba) (atapi cd) Undisturbed ⟨.countHigh, flag, e⟩
      ⟨.transfer e.count (e.count.toNat / 2) [], flag, e⟩ := by
  have hhigh : e.Shows cd (cd.io_port + 0x05) ((e.count >>> 8).setWidth 8) := by
    simp [Atapi.Shows]
  have hlow : e.Shows cd (cd.io_port + 0x04) (e.count.setWidth 8) := by simp [Atapi.Shows]
  have hcount : Pc.resume (.countLow ((e.count >>> 8).setWidth 8))
      (.ofByte (e.count.setWidth 8)) = .transfer e.count (e.count.toNat / 2) [] := by
    rw [resume_countLow, registerPair_split]
  have hrun : Run (readSector cd lba) (atapi cd) Undisturbed ⟨.countHigh, flag, e⟩
      ⟨Pc.resume (.countLow ((e.count >>> 8).setWidth 8)) (.ofByte (e.count.setWidth 8)),
        flag, e⟩ := atapi_inb _ rfl hhigh (atapi_inb _ rfl hlow (Run.refl _))
  rw [hcount] at hrun
  exact hrun

/-- Any handler wakes the driver, and it looks at no status. -/
theorem wake_run (cd : Cdrom) (lba : BitVec 32) {flag : BitVec 8} (hflag : flag ≠ 0)
    (e : Atapi) : Run (readSector cd lba) (atapi cd) anyStep ⟨.await, flag, e⟩
      ⟨.transfer e.count (e.count.toNat / 2) [], flag, e⟩ := by
  have hwake : Pc.resume .await (.ofByte flag) = .countHigh := if_neg hflag
  have hrun := (count_run cd lba flag e).mono (fun _ _ _ _ => trivial)
  rw [← hwake] at hrun
  exact Run.head (.readFlag rfl) trivial hrun

theorem transfer_unsafe (flag : BitVec 8) {e : Atapi} (he : ∀ n, e.phase ≠ .data (n + 1))
    (hcount : 2 ≤ e.count.toNat) : ¬ Safe ⟨.transfer e.count (e.count.toNat / 2) [], flag, e⟩ := by
  intro hsafe
  obtain ⟨k, hk⟩ : ∃ k, e.count.toNat / 2 = k + 1 := ⟨e.count.toNat / 2 - 1, by omega⟩
  obtain ⟨n, hn⟩ := hsafe.1 e.count k [] (by rw [hk])
  exact he n hn

/-- A wake-up that is not timely, with a byte count in the registers, goes wrong. -/
theorem wake_unsafe {cd : Cdrom} {lba : BitVec 32} {flag : BitVec 8} (hflag : flag ≠ 0)
    {e : Atapi} (he : ∀ n, e.phase ≠ .data (n + 1)) (hcount : 2 ≤ e.count.toNat) :
    ∃ s, Run (readSector cd lba) (atapi cd) anyStep ⟨.await, flag, e⟩ s ∧ ¬ Safe s := by
  exact ⟨_, wake_run cd lba hflag e, transfer_unsafe flag he hcount⟩

/-- A failed drive hands out nothing, and the driver takes it for words all the same. -/
theorem transfer_failed (cd : Cdrom) (lba : BitVec 32) (flag : BitVec 8)
    (rd_size count : BitVec 16) (left : ℕ) (words : List (BitVec 16)) :
    Run (readSector cd lba) (atapi cd) Undisturbed
      ⟨.transfer rd_size left words, flag, ⟨.failed, count⟩⟩
      ⟨.waitEnd rd_size (words ++ List.replicate left 0), flag, ⟨.failed, count⟩⟩ := by
  induction left generalizing words with
  | zero =>
      have hnext : Pc.resume (.transfer rd_size 0 words) (.ofWords []) =
          .waitEnd rd_size (words ++ List.replicate 0 0) := by
        rw [resume_transfer, if_pos (Nat.zero_le _)]
        rfl
      rw [← hnext]
      exact atapi_driver (by simp) (.serve rfl (.inswNone _ _)) (Run.refl _)
  | succ left ih =>
      have hrest : words ++ List.replicate (left + 1) (0 : BitVec 16) =
          words ++ [0] ++ List.replicate left 0 := by
        rw [List.replicate_succ, List.append_assoc, List.singleton_append]
      refine atapi_driver (by simp) (.serve rfl (.inswWord _ _ 0 _)) ?_
      rw [hrest]
      cases left with
      | zero =>
          have hnext : Pc.resume (.transfer rd_size (0 + 1) words) (.ofWords [0]) =
              .waitEnd rd_size (words ++ [0] ++ List.replicate 0 0) := by
            rw [resume_transfer, if_pos (by simp), List.replicate_zero, List.append_nil]
          rw [← hnext]
          exact Run.refl _
      | succ left =>
          have hnext : Pc.resume (.transfer rd_size (left + 1 + 1) words) (.ofWords [0]) =
              .transfer rd_size (left + 1) (words ++ [0]) := by
            rw [resume_transfer, if_neg (by simp)]
            rfl
          have h := ih (words ++ [0])
          rw [← hnext] at h
          exact h

/-- A command that fails after its packet was accepted, with any byte count left in the
registers: the interrupt of the failure wakes the driver, and it returns that count. -/
theorem readSector_failed (cd : Cdrom) (lba : BitVec 32) (flag : BitVec 8)
    (count count' : BitVec 16) : ∃ words flag', words.length = count'.toNat / 2 ∧
    Run (readSector cd lba) (atapi cd) anyStep ⟨.start cd, flag, ⟨.other, count⟩⟩
      ⟨.done { rd_size := count', words }, flag', ⟨.failed, count'⟩⟩ := by
  refine ⟨List.replicate (count'.toNat / 2) 0, irq_disk1 0, List.length_replicate, ?_⟩
  have hset : irq_disk1 0 ≠ 0 := by decide
  have htransfer := transfer_failed cd lba (irq_disk1 0) count' count' (count'.toNat / 2) []
  have hstatus : Atapi.Shows cd (cd.io_port + 0x07) 0x41 ⟨.failed, count'⟩ := by
    unfold Atapi.Shows
    rw [if_pos rfl]
    exact (by decide : (0x41 : BitVec 8) &&& 0x89 = 0x01)
  have hend : Pc.resume (.waitEnd count' (List.replicate (count'.toNat / 2) 0)) (.ofByte 0x41) =
      .done { rd_size := count', words := List.replicate (count'.toNat / 2) 0 } :=
    by rw [resume_waitEnd, if_neg (by decide)]
  have hdone : Run (readSector cd lba) (atapi cd) Undisturbed
      ⟨.waitEnd count' (List.replicate (count'.toNat / 2) 0), irq_disk1 0, ⟨.failed, count'⟩⟩
      ⟨Pc.resume (.waitEnd count' (List.replicate (count'.toNat / 2) 0)) (.ofByte 0x41),
        irq_disk1 0, ⟨.failed, count'⟩⟩ := atapi_inb 0x41 rfl hstatus (Run.refl _)
  rw [hend] at hdone
  have hafter : Run (readSector cd lba) (atapi cd) anyStep _ _ :=
    (wake_run cd lba hset ⟨.failed, count'⟩).trans
      ((htransfer.trans hdone).mono (fun _ _ _ _ => trivial))
  refine ((packet_run cd lba flag count).mono (fun _ _ _ _ => trivial)).trans ?_
  refine Run.head (.act (.fail (Or.inl rfl) _ count')) trivial ?_
  exact Run.head (.interrupt ⟨Or.inl rfl, rfl⟩) trivial hafter

end runs

/-- The drive on the other channel interrupts while this one still works on the packet: the
driver takes 1024 words from a busy drive. -/
theorem readSector_spurious : ¬ ∀ (cd : Cdrom) (lba : BitVec 32) (flag : BitVec 8)
    (count : BitVec 16) (s : Sys Pc Atapi), Run (readSector cd lba) (atapi cd) anyStep
      ⟨.start cd, flag, ⟨.other, count⟩⟩ s → Safe s := by
  intro hall
  have hset : irq_disk2 0 ≠ 0 := by decide
  have hsafe := hall plainCdrom 16 0 0 _
    (((packet_run plainCdrom 16 0 0).mono (fun _ _ _ _ => trivial)).trans
      (Run.head (.interrupt ⟨Or.inr rfl, rfl⟩) trivial
        (wake_run plainCdrom 16 hset ⟨.busy, 0x0800⟩)))
  obtain ⟨n, hn⟩ := hsafe.1 0x0800 1023 [] rfl
  cases hn

/-- The drive on the same channel interrupts when its block is there. -/
theorem readSector_safe_presented :
    Safe ⟨.transfer 0x0800 1024 [], 1, ⟨.data 1024, 0x0800⟩⟩ := by
  have hcount : (0x0800 : BitVec 16) ≠ 0 := by decide
  have hrun : Run (readSector plainCdrom 16) (atapi plainCdrom) Timely
      ⟨.start plainCdrom, 0, ⟨.other, 0⟩⟩ ⟨.transfer 0x0800 1024 [], 1, ⟨.data 1024, 0x0800⟩⟩ := by
    have hpacket := packet_run plainCdrom 16 0 0
    have hcount' := count_run plainCdrom 16 1 ⟨.data 1024, 0x0800⟩
    have hpresent := hpacket.trans (atapi_act (.present 0x0800 hcount) (by simp) (Run.refl _))
    refine (hpresent.mono fun _ _ _ => Undisturbed.timely).trans ?_
    refine Run.head (.interrupt ⟨Or.inl rfl, rfl⟩) trivial ?_
    refine Run.head (.readFlag rfl) (fun _ _ => Or.inl ⟨1023, rfl⟩) ?_
    exact hcount'.mono fun _ _ _ => Undisturbed.timely
  exact readSector_safe hrun

end Ziemniak.Stage2
