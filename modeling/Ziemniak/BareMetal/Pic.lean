import Mathlib.Data.Finset.Max
import Mathlib.Data.Fintype.Prod
import Ziemniak.BareMetal.Ports

/-! # A pair of 8259 interrupt controllers

Two controllers of eight lines each, the second behind a line of the first, in fully nested mode
with edge-triggered lines.  A chip holds its lines as sets: what is requested, in service and
masked.  It is programmed through two ports (`Chip.command`, `Chip.data`): the first command word
starts an initialisation, of which the data port takes the rest.  `Pair.inta` is the acknowledge
cycle of the processor.  A request may be withdrawn before it; the chip then answers with its line
7 and puts nothing in service.

Read commands, rotating priorities and the special modes are not modelled: such commands change
nothing here. -/

namespace BareMetal

namespace Pic

instance lines_neZero : NeZero 8 := ⟨by decide⟩

/-- The command word that the data port of a chip takes next; `operation` takes the mask. -/
inductive Stage
  | icw2
  | icw3
  | icw4
  | operation
deriving DecidableEq, Repr

/-- The lines whose bits are set. -/
def lines (v : BitVec 8) : Finset (Fin 8) := Finset.univ.filter (fun i => v.getLsbD i)

structure Chip where
  stage : Stage
  cascaded : Bool
  needsIcw4 : Bool
  base : BitVec 8
  icw3 : BitVec 8
  mode : BitVec 8
  irr : Finset (Fin 8)
  isr : Finset (Fin 8)
  imr : Finset (Fin 8)
deriving DecidableEq

/-- What a chip does at an acknowledge: the line it names, whether that was requested, and the
chip afterwards. -/
structure Accepted where
  line : Fin 8
  real : Bool
  chip : Chip

namespace Chip

/-- A non-specific end of interrupt: the line in service with the highest priority is done. -/
def eoi (c : Chip) : Chip :=
  if h : c.isr.Nonempty then { c with isr := c.isr.erase (c.isr.min' h) } else c

/-- A write to the command port. -/
def command (c : Chip) (v : BitVec 8) : Chip :=
  if v.getLsbD 4 then
    { c with
      stage := .icw2
      cascaded := !v.getLsbD 1
      needsIcw4 := v.getLsbD 0
      mode := if v.getLsbD 0 then c.mode else 0
      irr := ∅
      imr := ∅ }
  else if v.getLsbD 3 then c
  else if v &&& 0xE0 = 0x20 then c.eoi
  else if v &&& 0xE0 = 0x60 then { c with isr := c.isr.erase (Fin.ofNat 8 v.toNat) }
  else c

/-- A write to the data port. -/
def data (c : Chip) (v : BitVec 8) : Chip :=
  match c.stage with
  | .icw2 =>
      { c with
        base := v &&& 0xF8
        stage := if c.cascaded then .icw3 else if c.needsIcw4 then .icw4 else .operation }
  | .icw3 => { c with icw3 := v, stage := if c.needsIcw4 then .icw4 else .operation }
  | .icw4 => { c with mode := v, stage := .operation }
  | .operation => { c with imr := lines v }

/-- The requests that are let through: not masked, and before everything in service. -/
def pending (c : Chip) : Finset (Fin 8) :=
  c.irr.filter (fun i => i ∉ c.imr ∧ ∀ j ∈ c.isr, i < j)

/-- An acknowledge.  With automatic end of interrupt nothing stays in service. -/
def accept (c : Chip) : Accepted :=
  if h : c.pending.Nonempty then
    let i := c.pending.min' h
    { line := i
      real := true
      chip := { c with
        irr := c.irr.erase i
        isr := if c.mode.getLsbD 1 then c.isr else insert i c.isr } }
  else { line := 7, real := false, chip := c }

/-- The vector of a line, for a processor of the 8086 family. -/
def vector (c : Chip) (i : Fin 8) : Option (BitVec 8) :=
  if c.stage = .operation ∧ c.mode.getLsbD 0 then some (c.base ||| BitVec.ofNat 8 i) else none

/-- The line of the first chip that a second one answers for. -/
def id (c : Chip) : Fin 8 := Fin.ofNat 8 c.icw3.toNat

end Chip

inductive Which
  | master
  | slave
deriving DecidableEq, Repr

instance : Fintype Which := ⟨{.master, .slave}, by intro w; cases w <;> simp⟩

/-- A line: of which chip, and which one. -/
abbrev Line := Which × Fin 8

structure Pair where
  master : Chip
  slave : Chip
deriving DecidableEq

/-- An acknowledge cycle; no vector when no chip answers. -/
structure Inta where
  line : Line
  real : Bool
  vector : Option (BitVec 8)
  pics : Pair

namespace Pair

def chip (p : Pair) : Which → Chip
  | .master => p.master
  | .slave => p.slave

def modify (p : Pair) (f : Chip → Chip) : Which → Pair
  | .master => { p with master := f p.master }
  | .slave => { p with slave := f p.slave }

/-- A write to one of the ports of the two chips. -/
def outb (p : Pair) (port : BitVec 16) (v : BitVec 8) : Pair :=
  if port = 0x20 then { p with master := p.master.command v }
  else if port = 0x21 then { p with master := p.master.data v }
  else if port = 0xA0 then { p with slave := p.slave.command v }
  else if port = 0xA1 then { p with slave := p.slave.data v }
  else p

def writeAll (p : Pair) (ws : List (BitVec 16 × BitVec 8)) : Pair :=
  ws.foldl (fun p w => p.outb w.1 w.2) p

/-- The first chip names its line, or leaves it to a second chip that is wired to it. -/
def inta (p : Pair) : Inta :=
  let m := p.master.accept
  if p.master.cascaded ∧ m.line ∈ lines p.master.icw3 then
    if p.slave.id = m.line then
      let s := p.slave.accept
      { line := (.slave, s.line), real := s.real, vector := p.slave.vector s.line,
        pics := ⟨m.chip, s.chip⟩ }
    else { line := (.master, m.line), real := m.real, vector := none, pics := ⟨m.chip, p.slave⟩ }
  else
    { line := (.master, m.line), real := m.real, vector := p.master.vector m.line,
      pics := ⟨m.chip, p.slave⟩ }

def request (p : Pair) (l : Line) : Pair :=
  p.modify (fun c => { c with irr := insert l.2 c.irr }) l.1

def withdraw (p : Pair) (l : Line) : Pair :=
  p.modify (fun c => { c with irr := c.irr.erase l.2 }) l.1
/-- The same chips with other requests. -/
def setIrr (p : Pair) (r r' : Finset (Fin 8)) : Pair :=
  ⟨{ p.master with irr := r }, { p.slave with irr := r' }⟩

theorem request_setIrr (p : Pair) (l : Line) : ∃ r r', p.request l = p.setIrr r r' := by
  obtain ⟨w, i⟩ := l
  cases w with
  | master => exact ⟨insert i p.master.irr, p.slave.irr, rfl⟩
  | slave => exact ⟨p.master.irr, insert i p.slave.irr, rfl⟩

theorem withdraw_setIrr (p : Pair) (l : Line) : ∃ r r', p.withdraw l = p.setIrr r r' := by
  obtain ⟨w, i⟩ := l
  cases w with
  | master => exact ⟨p.master.irr.erase i, p.slave.irr, rfl⟩
  | slave => exact ⟨p.master.irr, p.slave.irr.erase i, rfl⟩

end Pair

/-! ### Setting up -/

/-- A chip in operation with the vectors from `base` on: for an 8086, with ends of interrupt that
are commands, and no line masked. -/
structure Chip.Operates (c : Chip) (base icw3 : BitVec 8) : Prop where
  stage : c.stage = .operation
  cascaded : c.cascaded = true
  base_eq : c.base = base
  icw3_eq : c.icw3 = icw3
  mode : c.mode = 0x01
  imr : c.imr = ∅

/-- Both chips, the second one behind line 2. -/
structure Ready (p : Pair) (b b' : BitVec 8) : Prop where
  master : p.master.Operates b 0x04
  slave : p.slave.Operates b' 0x02

/-- Nothing is in service. -/
def Quiet (p : Pair) : Prop := p.master.isr = ∅ ∧ p.slave.isr = ∅

instance (p : Pair) : Decidable (Quiet p) := inferInstanceAs (Decidable (_ ∧ _))

/-- The four command words for each chip, by turns, and empty masks. -/
def setup (b b' : BitVec 8) : List (BitVec 16 × BitVec 8) :=
  [(0x20, 0x11), (0xA0, 0x11), (0x21, b), (0xA1, b'), (0x21, 0x04), (0xA1, 0x02), (0x21, 0x01),
    (0xA1, 0x01), (0x21, 0x00), (0xA1, 0x00)]

/-- **Setting up** works from whatever the chips were doing; what was in service stays so. -/
theorem writeAll_setup (p : Pair) (b b' : BitVec 8) :
    Ready (p.writeAll (setup b b')) (b &&& 0xF8) (b' &&& 0xF8) ∧
      (p.writeAll (setup b b')).master.isr = p.master.isr ∧
      (p.writeAll (setup b b')).slave.isr = p.slave.isr := by
  have hnone : lines 0x00 = ∅ := by decide
  refine ⟨⟨⟨rfl, rfl, rfl, rfl, rfl, hnone⟩, ⟨rfl, rfl, rfl, rfl, rfl, hnone⟩⟩, rfl, rfl⟩

/-! ### Ends of interrupt -/

/-- A non-specific end of interrupt for one of the chips. -/
def IsEoi (w : BitVec 16 × BitVec 8) : Prop := w = (0x20, 0x20) ∨ w = (0xA0, 0x20)

/-- The ends of interrupt that a line of the chip asks for. -/
def eois : Which → List (BitVec 16 × BitVec 8)
  | .master => [(0x20, 0x20)]
  | .slave => [(0xA0, 0x20), (0x20, 0x20)]

theorem eois_isEoi (w : Which) : ∀ x ∈ eois w, IsEoi x := by
  cases w <;> simp [eois, IsEoi]

section eoi

variable {c : Chip} {p : Pair} {b b' base icw3 : BitVec 8}

theorem outb_eoi_master (p : Pair) : p.outb 0x20 0x20 = ⟨p.master.eoi, p.slave⟩ := rfl

theorem outb_eoi_slave (p : Pair) : p.outb 0xA0 0x20 = ⟨p.master, p.slave.eoi⟩ := rfl

theorem writeAll_eois_master (p : Pair) :
    p.writeAll (eois .master) = ⟨p.master.eoi, p.slave⟩ := rfl

theorem writeAll_eois_slave (p : Pair) :
    p.writeAll (eois .slave) = ⟨p.master.eoi, p.slave.eoi⟩ := rfl

theorem Chip.eoi_irr (c : Chip) : c.eoi.irr = c.irr := by
  unfold Chip.eoi
  split_ifs <;> rfl

theorem Chip.eoi_setIrr (c : Chip) (r : Finset (Fin 8)) :
    ({ c with irr := r } : Chip).eoi = { c.eoi with irr := r } := by
  unfold Chip.eoi
  split_ifs <;> rfl

theorem Chip.eoi_isr (h : ∀ i ∈ c.isr, ∀ j ∈ c.isr, i = j) : c.eoi.isr = ∅ := by
  unfold Chip.eoi
  by_cases hne : c.isr.Nonempty
  · rw [dif_pos hne]
    apply Finset.eq_empty_of_forall_notMem
    intro i hi
    have hmem := Finset.mem_of_mem_erase hi
    exact Finset.ne_of_mem_erase hi (h i hmem _ (c.isr.min'_mem hne))
  · rw [dif_neg hne]
    exact Finset.not_nonempty_iff_eq_empty.mp hne

theorem Chip.Operates.eoi (h : c.Operates base icw3) : c.eoi.Operates base icw3 := by
  unfold Chip.eoi
  split_ifs
  · exact ⟨h.stage, h.cascaded, h.base_eq, h.icw3_eq, h.mode, h.imr⟩
  · exact h

theorem Ready.outb_eoi (h : Ready p b b') {w : BitVec 16 × BitVec 8} (hw : IsEoi w) :
    Ready (p.outb w.1 w.2) b b' := by
  rcases hw with rfl | rfl
  · exact ⟨h.master.eoi, h.slave⟩
  · exact ⟨h.master, h.slave.eoi⟩

theorem outb_eoi_setIrr (p : Pair) (r r' : Finset (Fin 8)) {w : BitVec 16 × BitVec 8}
    (hw : IsEoi w) : (p.setIrr r r').outb w.1 w.2 = (p.outb w.1 w.2).setIrr r r' := by
  rcases hw with rfl | rfl
  · rw [outb_eoi_master, outb_eoi_master]
    exact congrArg (fun m => (⟨m, _⟩ : Pair)) (p.master.eoi_setIrr r)
  · rw [outb_eoi_slave, outb_eoi_slave]
    exact congrArg (fun s => (⟨_, s⟩ : Pair)) (p.slave.eoi_setIrr r')

/-- Requests come and go without a bearing on the ends of interrupt. -/
theorem writeAll_eoi_setIrr {ws : List (BitVec 16 × BitVec 8)} (hws : ∀ w ∈ ws, IsEoi w)
    (p : Pair) (r r' : Finset (Fin 8)) :
    (p.setIrr r r').writeAll ws = (p.writeAll ws).setIrr r r' := by
  induction ws generalizing p with
  | nil => rfl
  | cons w ws ih =>
      obtain ⟨hw, hrest⟩ := List.forall_mem_cons.mp hws
      have hstep : (p.setIrr r r').writeAll (w :: ws) =
          ((p.setIrr r r').outb w.1 w.2).writeAll ws := rfl
      rw [hstep, outb_eoi_setIrr p r r' hw, ih hrest]
      rfl

theorem outb_eoi_irr {w : BitVec 16 × BitVec 8} (hw : IsEoi w) (p : Pair) (k : Which) :
    ((p.outb w.1 w.2).chip k).irr = (p.chip k).irr := by
  rcases hw with rfl | rfl
  · cases k with
    | master => exact p.master.eoi_irr
    | slave => rfl
  · cases k with
    | master => rfl
    | slave => exact p.slave.eoi_irr

theorem Ready.setIrr (h : Ready p b b') (r r' : Finset (Fin 8)) : Ready (p.setIrr r r') b b' :=
  ⟨⟨h.master.stage, h.master.cascaded, h.master.base_eq, h.master.icw3_eq, h.master.mode,
      h.master.imr⟩,
    ⟨h.slave.stage, h.slave.cascaded, h.slave.base_eq, h.slave.icw3_eq, h.slave.mode,
      h.slave.imr⟩⟩

theorem quiet_setIrr (p : Pair) (r r' : Finset (Fin 8)) : Quiet (p.setIrr r r') ↔ Quiet p :=
  Iff.rfl

end eoi

/-! ### Acknowledging -/

section inta

variable {c : Chip} {p : Pair} {b b' base icw3 : BitVec 8}

/-- A chip with nothing in service takes its first request, or answers with line 7. -/
theorem Chip.accept_quiet (h : c.Operates base icw3) (hq : c.isr = ∅) :
    (c.accept.real = true ∧ c.accept.line ∈ c.irr ∧ (∀ j ∈ c.irr, c.accept.line ≤ j) ∧
      c.accept.chip = { c with irr := c.irr.erase c.accept.line, isr := {c.accept.line} }) ∨
    (c.accept.real = false ∧ c.accept.line = 7 ∧ c.irr = ∅ ∧ c.accept.chip = c) := by
  have hpending : c.pending = c.irr := by
    unfold Chip.pending
    rw [h.imr, hq]
    simp
  have hmode : c.mode.getLsbD 1 = false := by
    rw [h.mode]
    decide
  unfold Chip.accept
  by_cases hne : c.pending.Nonempty
  · rw [dif_pos hne]
    left
    simp only [hmode, hq, hpending]
    refine ⟨trivial, Finset.min'_mem _ _, fun j hj => Finset.min'_le _ j hj, rfl⟩
  · rw [dif_neg hne]
    rw [hpending, Finset.not_nonempty_iff_eq_empty] at hne
    exact Or.inr ⟨rfl, rfl, hne, rfl⟩

theorem Chip.accept_eoi (h : c.Operates base icw3) (hq : c.isr = ∅) :
    c.accept.chip.eoi.isr = ∅ := by
  apply Chip.eoi_isr
  rcases c.accept_quiet h hq with ⟨-, -, -, hchip⟩ | ⟨-, -, -, hchip⟩
  · rw [hchip]
    simp
  · rw [hchip, hq]
    simp

theorem Chip.accept_irr (h : c.Operates base icw3) (hq : c.isr = ∅) (i : Fin 8)
    (hi : c.accept.real = true → i ≠ c.accept.line) : i ∈ c.accept.chip.irr ↔ i ∈ c.irr := by
  rcases c.accept_quiet h hq with ⟨hreal, -, -, hchip⟩ | ⟨-, -, -, hchip⟩
  · rw [hchip]
    exact Finset.mem_erase.trans (and_iff_right (hi hreal))
  · rw [hchip]

theorem Chip.accept_taken (h : c.Operates base icw3) (hq : c.isr = ∅)
    (hreal : c.accept.real = true) :
    c.accept.line ∈ c.irr ∧ c.accept.line ∉ c.accept.chip.irr ∧ ∀ j ∈ c.irr, c.accept.line ≤ j := by
  rcases c.accept_quiet h hq with ⟨-, hmem, hfirst, hchip⟩ | ⟨hnot, -⟩
  · refine ⟨hmem, ?_, hfirst⟩
    rw [hchip]
    exact Finset.notMem_erase _ _
  · rw [hreal] at hnot
    cases hnot

theorem Chip.accept_spurious (h : c.Operates base icw3) (hq : c.isr = ∅)
    (hreal : c.accept.real = false) : c.accept.line = 7 ∧ c.irr = ∅ := by
  rcases c.accept_quiet h hq with ⟨hnot, -⟩ | ⟨-, hline, hnone, -⟩
  · rw [hreal] at hnot
    cases hnot
  · exact ⟨hline, hnone⟩

theorem Chip.Operates.accept (h : c.Operates base icw3) : c.accept.chip.Operates base icw3 := by
  unfold Chip.accept
  by_cases hne : c.pending.Nonempty
  · rw [dif_pos hne]
    exact ⟨h.stage, h.cascaded, h.base_eq, h.icw3_eq, h.mode, h.imr⟩
  · rw [dif_neg hne]
    exact h

theorem Chip.Operates.vector (h : c.Operates base icw3) (i : Fin 8) :
    c.vector i = some (base ||| BitVec.ofNat 8 i) := by
  unfold Chip.vector
  rw [h.stage, h.mode, h.base_eq, if_pos ⟨rfl, rfl⟩]

/-- The vector of a line, with the vectors of the two chips from `b` and `b'` on. -/
def lineVector (b b' : BitVec 8) : Line → BitVec 8
  | (.master, i) => b ||| BitVec.ofNat 8 i
  | (.slave, i) => b' ||| BitVec.ofNat 8 i

/-- The line that a chip has a request on. -/
def Requested (p : Pair) (l : Line) : Prop := l.2 ∈ (p.chip l.1).irr

instance (p : Pair) (l : Line) : Decidable (Requested p l) :=
  inferInstanceAs (Decidable (_ ∈ _))

/-- The line between the chips. -/
def link : Line := (.master, 2)

/-- The order in which lines are served: those of the second chip come between lines 1 and 3. -/
def rank : Line → ℕ
  | (.master, i) => if i < 2 then i else i + 7
  | (.slave, i) => i + 2

/-- What an acknowledge of quiet chips comes to. -/
structure Answers (p : Pair) (b b' : BitVec 8) (a : Inta) : Prop where
  vector : a.vector = some (lineVector b b' a.line)
  line_ne : a.line ≠ link
  taken : a.real = true → Requested p a.line ∧ ¬ Requested a.pics a.line
  first : a.real = true → ∀ l ≠ link, Requested p l → (l.1 = .slave → Requested p link) →
    rank a.line ≤ rank l
  spurious : a.real = false → a.line.2 = 7 ∧ ∀ i, ¬ Requested p (a.line.1, i)
  linked : a.line.1 = .slave → Requested p link ∧ ¬ Requested a.pics link
  link_kept : Requested a.pics link → Requested p link
  kept : ∀ l ≠ link, (a.real = true → l ≠ a.line) → (Requested a.pics l ↔ Requested p l)
  ready : Ready a.pics b b'
  owed : Quiet (a.pics.writeAll (eois a.line.1))

theorem inta_master (h : Ready p b b') (hline : p.master.accept.line ≠ 2) : p.inta =
    { line := (.master, p.master.accept.line), real := p.master.accept.real
      vector := some (lineVector b b' (.master, p.master.accept.line))
      pics := ⟨p.master.accept.chip, p.slave⟩ } := by
  have hlines : lines p.master.icw3 = {2} := by
    rw [h.master.icw3_eq]
    decide
  unfold Pair.inta
  rw [hlines, if_neg (by simp [hline]), h.master.vector]
  rfl

theorem inta_slave (h : Ready p b b') (hline : p.master.accept.line = 2) : p.inta =
    { line := (.slave, p.slave.accept.line), real := p.slave.accept.real
      vector := some (lineVector b b' (.slave, p.slave.accept.line))
      pics := ⟨p.master.accept.chip, p.slave.accept.chip⟩ } := by
  have hlines : lines p.master.icw3 = {2} := by
    rw [h.master.icw3_eq]
    decide
  have hid : p.slave.id = 2 := by
    unfold Chip.id
    rw [h.slave.icw3_eq]
    decide
  unfold Pair.inta
  simp only [hlines, hline, hid, Finset.mem_singleton, and_true, if_true]
  rw [if_pos h.master.cascaded, h.slave.vector]
  rfl

theorem rank_master_mono {i j : Fin 8} (h : i ≤ j) : rank (.master, i) ≤ rank (.master, j) := by
  unfold rank
  simp only
  split_ifs <;> omega

theorem answers_slave (h : Ready p b b') (hq : Quiet p) (hlink : p.master.accept.line = 2) :
    Answers p b b' p.inta := by
  have hm := p.master.accept_irr h.master hq.1
  have hs := p.slave.accept_irr h.slave hq.2
  have hmreal : p.master.accept.real = true := by
    by_contra hnot
    have h7 := (p.master.accept_spurious h.master hq.1 (Bool.eq_false_iff.mpr hnot)).1
    rw [hlink] at h7
    exact absurd h7 (by decide)
  have hmtaken := p.master.accept_taken h.master hq.1 hmreal
  rw [hlink] at hmtaken hm
  rw [inta_slave h hlink]
  refine ⟨rfl, by simp [link], ?_, ?_, ?_, fun _ => ⟨hmtaken.1, hmtaken.2.1⟩,
    fun hnot => absurd hnot hmtaken.2.1, ?_, ⟨h.master.accept, h.slave.accept⟩, ?_⟩
  · intro hreal
    have htaken := p.slave.accept_taken h.slave hq.2 hreal
    exact ⟨htaken.1, htaken.2.1⟩
  · rintro hreal ⟨w, j⟩ hne hreq -
    have htaken := p.slave.accept_taken h.slave hq.2 hreal
    cases w with
    | master =>
        have h2 := hmtaken.2.2 j hreq
        have hj : j ≠ 2 := by rintro rfl; exact hne rfl
        simp only [rank]
        split_ifs <;> omega
    | slave =>
        have hle := htaken.2.2 j hreq
        simp only [rank]
        omega
  · intro hreal
    obtain ⟨hline, hnone⟩ := p.slave.accept_spurious h.slave hq.2 hreal
    exact ⟨hline, fun i hi => absurd (hnone ▸ hi : i ∈ (∅ : Finset (Fin 8)))
      (Finset.notMem_empty i)⟩
  · rintro ⟨w, j⟩ hne hother
    cases w with
    | master => exact hm j (fun _ => by rintro rfl; exact hne rfl)
    | slave => exact hs j (fun hreal hj => hother hreal (by rw [hj]))
  · show Quiet (Pair.writeAll ⟨p.master.accept.chip, p.slave.accept.chip⟩ (eois .slave))
    rw [writeAll_eois_slave]
    exact ⟨p.master.accept_eoi h.master hq.1, p.slave.accept_eoi h.slave hq.2⟩

theorem answers_master (h : Ready p b b') (hq : Quiet p) (hlink : p.master.accept.line ≠ 2) :
    Answers p b b' p.inta := by
  have hm := p.master.accept_irr h.master hq.1
  have hready : Ready ⟨p.master.accept.chip, p.slave⟩ b b' := ⟨h.master.accept, h.slave⟩
  rw [inta_master h hlink]
  refine ⟨rfl, by simp [link, hlink], ?_, ?_, ?_, fun hw => by simp at hw,
    (hm 2 fun _ => Ne.symm hlink).mp, ?_, hready, ?_⟩
  · intro hreal
    have htaken := p.master.accept_taken h.master hq.1 hreal
    exact ⟨htaken.1, htaken.2.1⟩
  · rintro hreal ⟨w, j⟩ hne hreq hvia
    have htaken := p.master.accept_taken h.master hq.1 hreal
    cases w with
    | master => exact rank_master_mono (htaken.2.2 j hreq)
    | slave =>
        have h2 : p.master.accept.line ≤ 2 := htaken.2.2 2 (hvia rfl)
        simp only [rank]
        split_ifs <;> omega
  · intro hreal
    obtain ⟨hline, hnone⟩ := p.master.accept_spurious h.master hq.1 hreal
    exact ⟨hline, fun i hi => absurd (hnone ▸ hi : i ∈ (∅ : Finset (Fin 8)))
      (Finset.notMem_empty i)⟩
  · rintro ⟨w, j⟩ hne hother
    cases w with
    | master => exact hm j (fun hreal hj => hother hreal (by rw [hj]))
    | slave => exact Iff.rfl
  · show Quiet (Pair.writeAll ⟨p.master.accept.chip, p.slave⟩ (eois .master))
    rw [writeAll_eois_master]
    exact ⟨p.master.accept_eoi h.master hq.1, hq.2⟩

/-- **An acknowledge** with nothing in service: a vector of the right line, whose ends of
interrupt leave nothing in service again. -/
theorem inta_answers (h : Ready p b b') (hq : Quiet p) : Answers p b b' p.inta := by
  by_cases hlink : p.master.accept.line = 2
  · exact answers_slave h hq hlink
  · exact answers_master h hq hlink

end inta

end Pic

namespace Device

variable {δ : Type}

/-- The device, and the controllers behind the same ports; reads are the device's. -/
def withPics (dev : Device δ) : Device (δ × Pic.Pair) where
  inb port d := ((dev.inb port d.1).1, (dev.inb port d.1).2, d.2)
  outb port v d := (dev.outb port v d.1, d.2.outb port v)
  insw port n d := ((dev.insw port n d.1).1, (dev.insw port n d.1).2, d.2)
  outsw port ws d := (dev.outsw port ws d.1, d.2)
  irq d := ((dev.irq d.1).1, (dev.irq d.1).2, d.2)
  insw_length port n d := dev.insw_length port n d.1

end Device

end BareMetal
