import Mathlib.Tactic.FinCases
import Ziemniak.BareMetal.IrqService
import Ziemniak.Stage2.Idt
import Ziemniak.Stage2.Interrupts

/-! # The loader's interrupts

`init_idt` with the interrupt controllers behind the ports: it fills the table, moves the
controllers' vectors to 32 and lets interrupts through.  From there on a vector leads through the
table to one of the functions of `interrupt.c`, which runs one statement at a time while the rest
of the loader waits.  `initIdt_reliable` is what holds of every run.

`cdrom_read_sector` waits for the flag that two of these functions set.  `Interrupts.lean` lets
these run as single steps, for whatever reason; here they run because of a request, and
`readSector_requested` says which requests keep the words of a sector in its data phase. -/

namespace Ziemniak.Stage2

open BareMetal
open BareMetal.Pic (Line Pair Quiet Ready Requested link lineVector eois)

/-! ### The functions -/

/-- The functions that `init_idt` puts into the table. -/
inductive IsrName
  | exception
  | exception_err
  | irq_low
  | irq_high
  | irq_disk1
  | irq_disk2
deriving DecidableEq, Repr

def IsrAddresses.of (isr : IsrAddresses) : IsrName → BitVec 32
  | .exception => isr.exception
  | .exception_err => isr.exception_err
  | .irq_low => isr.irq_low
  | .irq_high => isr.irq_high
  | .irq_disk1 => isr.irq_disk1
  | .irq_disk2 => isr.irq_disk2

/-- Their statements; an effect sets bits of `*data_ready`.  The functions for exceptions do not
return. -/
def isrCode : IsrName → Option (List (Irq.Action (BitVec 8)))
  | .exception => none
  | .exception_err => none
  | .irq_low => some [.out 0x20 0x20]
  | .irq_high => some [.out 0xA0 0x20, .out 0x20 0x20]
  | .irq_disk1 => some [.effect 0x01, .out 0xA0 0x20, .out 0x20 0x20]
  | .irq_disk2 => some [.effect 0x02, .out 0xA0 0x20, .out 0x20 0x20]

/-- The way of a vector through the table to a function that returns. -/
def Handles (isr : IsrAddresses) (idtr : TableReg) (m : Mem) (v : BitVec 8)
    (h : Irq.Handler (BitVec 8)) : Prop :=
  ∃ g n code, vector32 idtr m v.toNat = some g ∧ isr.of n = g.target ∧ isrCode n = some code ∧
    h = { masks := g.kind == .interrupt, code }

/-- The loader at work: a driver `D` among other things `E`, all of whose steps meet `C`. -/
def loaderPlatform {σ ε : Type} (isr : IsrAddresses) (idtr : TableReg) (m : Mem) (D : Driver σ)
    (E : Env ε) : Irq.Platform (Sys σ ε) (BitVec 8) where
  handler := Handles isr idtr m
  apply bits s := { s with flag := s.flag ||| bits }
  program := Step D E .driver
  outside := Step D E .env

/-! ### Behind `init_idt` -/

section initIdt

variable {δ σ ε : Type} (isr : IsrAddresses) (dev : Device δ) (idt : ℕ) (drdy : BitVec 32)
  (s : IdtState (δ × Pair))

/-- The machine behind a call of `init_idt`. -/
def loaderStart (d : Sys σ ε) : Irq.Machine (Sys σ ε) (BitVec 8) :=
  let s := initIdt isr dev.withPics idt drdy s
  { pics := s.dev.2, enabled := s.enabled, stray := false, active := [], data := d }

/-- The machine's platform, with the table that `init_idt` has filled. -/
def startPlatform (D : Driver σ) (E : Env ε) : Irq.Platform (Sys σ ε) (BitVec 8) :=
  loaderPlatform isr (initIdt isr dev.withPics idt drdy s).idtr
    (initIdt isr dev.withPics idt drdy s).mem D E

/-- The name of the function for a line. -/
def lineIsr : Line → IsrName
  | (.master, _) => .irq_low
  | (.slave, i) => if i = 6 then .irq_disk1 else if i = 7 then .irq_disk2 else .irq_high

theorem lineVector_toNat (l : Line) : (lineVector 0x20 0x28 l).toNat =
    match l with
    | (.master, i) => 32 + i.val
    | (.slave, i) => 40 + i.val := by
  obtain ⟨w, i⟩ := l
  cases w <;> fin_cases i <;> rfl

theorem handlerOf_line (l : Line) :
    handlerOf isr (lineVector 0x20 0x28 l).toNat = isr.of (lineIsr l) := by
  obtain ⟨w, i⟩ := l
  cases w <;> fin_cases i <;> rfl

theorem lineGate (l : Line) : vector32 (initIdt isr dev.withPics idt drdy s).idtr
    (initIdt isr dev.withPics idt drdy s).mem (lineVector 0x20 0x28 l).toNat =
      some { target := isr.of (lineIsr l), selector := 0x08, ist := 0, dpl := 0,
             kind := .interrupt } := by
  have hv : (lineVector 0x20 0x28 l).toNat < 48 ∧ ¬ (lineVector 0x20 0x28 l).toNat < 32 := by
    rw [lineVector_toNat]
    obtain ⟨w, i⟩ := l
    cases w <;> simp only <;> omega
  rw [initIdt_vectors, if_pos hv.1, handlerOf_line]
  unfold plainGate
  rw [if_neg hv.2]

variable {isr}

theorem handler_iff (hisr : Function.Injective isr.of) (l : Line) (h : Irq.Handler (BitVec 8)) :
    Handles isr (initIdt isr dev.withPics idt drdy s).idtr
      (initIdt isr dev.withPics idt drdy s).mem (lineVector 0x20 0x28 l) h ↔
      ∃ code, isrCode (lineIsr l) = some code ∧ h = { masks := true, code } := by
  unfold Handles
  rw [lineGate]
  constructor
  · rintro ⟨g, n, code, hg, hn, hcode, rfl⟩
    obtain rfl := Option.some.inj hg
    obtain rfl := hisr hn
    exact ⟨code, hcode, rfl⟩
  · rintro ⟨code, hcode, rfl⟩
    exact ⟨_, lineIsr l, code, rfl, rfl, hcode, rfl⟩

theorem startPlatform_serves (hisr : Function.Injective isr.of) (D : Driver σ) (E : Env ε) :
    Irq.Serves (startPlatform isr dev idt drdy s D E) 0x20 0x28 := by
  intro l _
  have hcode : ∃ code, isrCode (lineIsr l) = some code ∧ Irq.outs code = eois l.1 := by
    obtain ⟨w, i⟩ := l
    cases w with
    | master => exact ⟨_, rfl, rfl⟩
    | slave =>
        unfold lineIsr
        simp only
        split_ifs
        · exact ⟨_, rfl, rfl⟩
        · exact ⟨_, rfl, rfl⟩
        · exact ⟨_, rfl, rfl⟩
  obtain ⟨code, hcode, houts⟩ := hcode
  constructor
  · exact ⟨_, (handler_iff dev idt drdy s hisr l _).mpr ⟨code, hcode, rfl⟩⟩
  · intro h hh
    obtain ⟨code', hcode', rfl⟩ := (handler_iff dev idt drdy s hisr l h).mp hh
    obtain rfl := Option.some.inj (hcode.symm.trans hcode')
    exact ⟨rfl, houts⟩

variable {s}

theorem loaderStart_inv (hq : Quiet s.dev.2) (d : Sys σ ε) :
    Irq.Inv 0x20 0x28 (loaderStart isr dev idt drdy s d) := by
  obtain ⟨hready, hmaster, hslave⟩ := Pic.writeAll_setup s.dev.2 0x20 0x28
  exact ⟨hready, rfl, Or.inl ⟨rfl, rfl, hmaster.trans hq.1, hslave.trans hq.2⟩⟩

theorem loaderStart_requested (isr : IsrAddresses) (s : IdtState (δ × Pair)) (d : Sys σ ε)
    (l : Line) : ¬ Requested (loaderStart isr dev idt drdy s d).pics l := by
  obtain ⟨w, i⟩ := l
  cases w <;> exact Finset.notMem_empty i

/-- **The loader's interrupts.**  Whatever the controllers were set to before, if nothing was in
service: in every run from `init_idt` on no interrupt goes astray, handlers do not nest and leave
nothing in service, and every request is answered once, by its turn. -/
theorem initIdt_reliable (hisr : Function.Injective isr.of) (hq : Quiet s.dev.2) {D : Driver σ}
    {E : Env ε} {d : Sys σ ε} {es : List Irq.Event} {t : Irq.Machine (Sys σ ε) (BitVec 8)}
    (h : Irq.Trace (startPlatform isr dev idt drdy s D E) (loaderStart isr dev idt drdy s d) es t) :
    Irq.Reliable (startPlatform isr dev idt drdy s D E) (loaderStart isr dev idt drdy s d) es t :=
  h.reliable (startPlatform_serves dev idt drdy s hisr D E) (loaderStart_inv dev idt drdy hq d)

end initIdt

/-! ### Reading a sector -/

/-- The lines of the two channels. -/
def disk1 : Line := (.slave, 6)
def disk2 : Line := (.slave, 7)

abbrev ReadMachine := Irq.Machine (Sys Pc Atapi) (BitVec 8)

/-- The drive presents words, or has failed without a byte count. -/
def Presents (e : Atapi) : Prop := (∃ n, e.phase = .data (n + 1)) ∨ e.Void

/-- What is asked of the hardware: a request on the line of a channel means that the drive presents
its data, requests of the second controller are not withdrawn, and the drive does not fail once
words were taken. -/
def Disciplined : Irq.Event → ReadMachine → ReadMachine → Prop
  | .request l, s, _ => l = disk1 ∨ l = disk2 → Presents s.data.env
  | .withdraw l, _, _ => l.1 = .master
  | .outside, s, s' => s'.data.env.phase = .failed → s.data.env.phase ≠ .failed →
      s.data.driver.words = []
  | _, _, _ => True

/-- An interrupt of a channel that the flag does not show yet: requested, or in a handler that
has its effect before it. -/
def Pending (s : ReadMachine) : Prop := Requested s.pics disk1 ∨ Requested s.pics disk2 ∨
  ∃ a ∈ s.active, ∃ v, Irq.Action.effect v ∈ a.todo

/-- Up to the wait no interrupt of a channel is under way, and during it one means that the drive
presents its data. -/
def Calm (pc : Pc) (pending : Prop) (flag : BitVec 8) (e : Atapi) : Prop :=
  match pc with
  | .setup r _ => ¬ pending ∧ (r ≠ .clearFlag → flag = 0)
  | .waitBsy | .waitDrq | .packet => ¬ pending ∧ flag = 0
  | .await => pending ∨ flag ≠ 0 → Presents e
  | _ => True

structure DiskInv (s : ReadMachine) : Prop where
  irq : Irq.Inv 0x20 0x28 s
  linked : Irq.Linked s.pics
  driver : Inv s.data.driver s.data.env
  calm : Calm s.data.driver (Pending s) s.data.flag s.data.env

section steps

variable {pc : Pc} {pending pending' : Prop} {flag : BitVec 8} {e e' : Atapi} {cd : Cdrom}
  {lba : BitVec 32}

theorem Calm.mono (h : Calm pc pending flag e) (hp : pending' → pending) :
    Calm pc pending' flag e := by
  unfold Calm at h ⊢
  split at h
  · exact ⟨fun hp' => h.1 (hp hp'), h.2⟩
  · exact ⟨fun hp' => h.1 (hp hp'), h.2⟩
  · exact ⟨fun hp' => h.1 (hp hp'), h.2⟩
  · exact ⟨fun hp' => h.1 (hp hp'), h.2⟩
  · exact fun hor => h (hor.imp_left hp)
  · trivial

theorem Atapi.Early.not_presents (h : e.Early) : ¬ Presents e := by
  rintro (⟨n, hn⟩ | ⟨hf, -⟩)
  · exact h.not_data _ hn
  · unfold Atapi.Early at h
    rw [hf] at h
    simp at h

theorem Presents.acts (h : Presents e) (ha : Atapi.Acts e e') : Presents e' := by
  rcases h with ⟨n, hn⟩ | ⟨hf, h0⟩
  · cases ha <;> simp_all
  · cases ha <;> simp_all

/-- An interrupt of a channel comes up while the drive presents its data. -/
theorem Calm.of_presents (h : Calm pc pending flag e) (hi : Inv pc e) (he : Presents e)
    (pending' : Prop) : Calm pc pending' flag e := by
  cases pc with
  | setup r todo => exact absurd he hi.1.not_presents
  | waitBsy => exact absurd he (Atapi.Early.not_presents hi)
  | waitDrq => exact absurd he (Atapi.Early.not_presents hi)
  | packet => exact absurd he (Atapi.Early.not_presents hi)
  | await => exact fun _ => he
  | _ => trivial

theorem Calm.set (h : Calm pc pending flag e) (hp : pending) (bits : BitVec 8) :
    Calm pc pending (flag ||| bits) e := by
  cases pc with
  | setup r todo => exact absurd hp h.1
  | waitBsy => exact absurd hp h.1
  | waitDrq => exact absurd hp h.1
  | packet => exact absurd hp h.1
  | await => exact fun _ => h (Or.inl hp)
  | _ => trivial

theorem Calm.acts (h : Calm pc pending flag e) (ha : Atapi.Acts e e') :
    Calm pc pending flag e' := by
  cases pc with
  | await => exact fun hor => (h hor).acts ha
  | _ => exact h

theorem Calm.serve (h : Calm pc pending flag e) {r : Request} {a : Answer}
    (hr : Pc.request cd lba pc = some r) (hserve : Atapi.Serve cd r e a e') :
    Calm (pc.resume a) pending flag e' := by
  cases pc with
  | setup q todo =>
      obtain rfl := Option.some.inj hr
      have hne : q ≠ .clearFlag := by
        rintro rfl
        cases hserve
      cases todo with
      | nil => exact ⟨h.1, h.2 hne⟩
      | cons q' todo => exact ⟨h.1, fun _ => h.2 hne⟩
  | waitBsy =>
      obtain rfl := Option.some.inj hr
      cases hserve
      rw [resume_waitBsy]
      split_ifs
      · exact h
      · exact h
  | waitDrq =>
      obtain rfl := Option.some.inj hr
      cases hserve
      rw [resume_waitDrq]
      split_ifs
      · exact h
      · trivial
      · exact h
  | packet =>
      obtain ⟨hp, h0⟩ := h
      rintro (hpend | hflag)
      · exact absurd hpend hp
      · exact absurd h0 hflag
  | await =>
      obtain rfl := Option.some.inj hr
      cases hserve
  | countHigh => trivial
  | countLow high => trivial
  | transfer rd_size left words =>
      unfold Pc.resume
      simp only
      split_ifs <;> trivial
  | waitEnd rd_size words =>
      obtain rfl := Option.some.inj hr
      cases hserve
      rw [resume_waitEnd]
      split_ifs <;> trivial
  | done r' => cases hr

theorem Calm.step {s s' : Sys Pc Atapi} (h : Calm s.driver pending s.flag s.env)
    (hi : Inv s.driver s.env) (hstep : Step (readSector cd lba) (atapi cd) .driver s s') :
    Calm s'.driver pending s'.flag s'.env ∧ Timely .driver s s' := by
  obtain ⟨pc, flag, e⟩ := s
  have htimely : Timely .driver ⟨pc, flag, e⟩ s' := by
    rintro rfl hflag
    exact h (Or.inr hflag)
  refine ⟨?_, htimely⟩
  cases hstep with
  | @serve _ r a e' hr hserve => exact h.serve hr hserve
  | clearFlag hr =>
      cases pc with
      | setup r todo =>
          cases todo with
          | nil => exact ⟨h.1, rfl⟩
          | cons q todo => exact ⟨h.1, fun _ => rfl⟩
      | _ => cases hr
  | readFlag hr =>
      cases pc with
      | setup r todo =>
          obtain rfl := Option.some.inj hr
          simp [Inv, Plain] at hi
      | await =>
          show Calm (Pc.resume .await (.ofByte flag)) pending flag e
          rw [resume_await]
          split_ifs with h0
          · exact h
          · trivial
      | _ => cases hr

end steps

section run

variable {δ : Type} {isr : IsrAddresses} {dev : Device δ} {idt : ℕ} {drdy : BitVec 32}
  {s₀ : IdtState (δ × Pair)} {cd : Cdrom} {lba : BitVec 32} {e : Irq.Event} {s t : ReadMachine}

/-- Only the functions of the channels have an effect. -/
theorem effect_of_handles (hisr : Function.Injective isr.of) {l : Line}
    {h : Irq.Handler (BitVec 8)} (hh : Handles isr (initIdt isr dev.withPics idt drdy s₀).idtr
      (initIdt isr dev.withPics idt drdy s₀).mem (lineVector 0x20 0x28 l) h) {v : BitVec 8}
    (hv : .effect v ∈ h.code) : l = disk1 ∨ l = disk2 := by
  obtain ⟨code, hcode, rfl⟩ := (handler_iff dev idt drdy s₀ hisr l h).mp hh
  obtain ⟨w, i⟩ := l
  cases w with
  | master =>
      obtain rfl := Option.some.inj hcode
      simp at hv
  | slave =>
      unfold lineIsr at hcode
      simp only at hcode
      split_ifs at hcode with h6 h7
      · exact Or.inl (by rw [h6]; rfl)
      · exact Or.inr (by rw [h7]; rfl)
      · obtain rfl := Option.some.inj hcode
        simp at hv

theorem DiskInv.exec {P : Irq.Platform (Sys Pc Atapi) (BitVec 8)}
    (hP : P.apply = fun bits d => { d with flag := d.flag ||| bits }) (hi : DiskInv s)
    {a : Irq.Activation (BitVec 8)} {x : Irq.Action (BitVec 8)}
    {todo : List (Irq.Action (BitVec 8))} {rest : List (Irq.Activation (BitVec 8))}
    (hs : s.active = a :: rest) (htodo : a.todo = x :: todo)
    (hirq : Irq.Inv 0x20 0x28
      (Irq.Machine.perform P { s with active := { a with todo } :: rest } x)) :
    DiskInv (Irq.Machine.perform P { s with active := { a with todo } :: rest } x) := by
  have hstep := Irq.Step.exec (P := P) hs htodo
  have hreq := hstep.exec_requested hi.irq
  have hlinked := hstep.linked hi.irq (fun _ he => nomatch he) hi.linked
  obtain ⟨rfl, -⟩ := hi.irq.serving hs
  have hpend : Pending (Irq.Machine.perform P { s with active := [{ a with todo }] } x) →
      Pending s := by
    rintro (h1 | h2 | ⟨a', hmem, v, hv⟩)
    · exact Or.inl ((hreq disk1).mp h1)
    · exact Or.inr (Or.inl ((hreq disk2).mp h2))
    · have hactive : (Irq.Machine.perform P { s with active := [{ a with todo }] } x).active =
          [{ a with todo }] := by
        cases x <;> rfl
      rw [hactive, List.mem_singleton] at hmem
      subst hmem
      exact Or.inr (Or.inr ⟨a, by rw [hs]; simp, v, by rw [htodo]; simp [hv]⟩)
  cases x with
  | out port v => exact ⟨hirq, hlinked, hi.driver, hi.calm.mono hpend⟩
  | effect v =>
      have hnow : Pending s := Or.inr (Or.inr ⟨a, by rw [hs]; simp, v, by rw [htodo]; simp⟩)
      have hdata : (Irq.Machine.perform P { s with active := [{ a with todo }] } (.effect v)).data =
          { s.data with flag := s.data.flag ||| v } := by
        unfold Irq.Machine.perform
        rw [hP]
      refine ⟨hirq, hlinked, ?_, ?_⟩
      · rw [hdata]
        exact hi.driver
      · rw [hdata]
        exact (hi.calm.set hnow v).mono hpend

theorem Pending.of_kept
    (hreq : ∀ l, l = disk1 ∨ l = disk2 → Requested t.pics l → Requested s.pics l)
    (hactive : t.active ⊆ s.active) (h : Pending t) : Pending s := by
  rcases h with h1 | h2 | ⟨a, ha, hv⟩
  · exact Or.inl (hreq disk1 (Or.inl rfl) h1)
  · exact Or.inr (Or.inl (hreq disk2 (Or.inr rfl) h2))
  · exact Or.inr (Or.inr ⟨a, hactive ha, hv⟩)

/-- The function of a channel runs because the channel had asked. -/
theorem DiskInv.pending_delivered (hisr : Function.Injective isr.of) (hi : DiskInv s)
    (hif : s.enabled = true) {v : BitVec 8} (hv : s.pics.inta.vector = some v)
    {h : Irq.Handler (BitVec 8)} (hh : Handles isr (initIdt isr dev.withPics idt drdy s₀).idtr
      (initIdt isr dev.withPics idt drdy s₀).mem v h)
    (hpend : Pending { s with
      pics := s.pics.inta.pics
      enabled := !h.masks
      active := ⟨s.pics.inta.line, s.enabled, h.code⟩ :: s.active }) : Pending s := by
  have hidle := hi.irq.idle hif
  have ha := Pic.inta_answers hi.irq.ready hidle.quiet
  have hbefore : ∀ l ≠ link, Requested s.pics.inta.pics l → Requested s.pics l := by
    intro l hl hreq
    refine (ha.kept l hl ?_).mp hreq
    rintro hreal rfl
    exact (ha.taken hreal).2 hreq
  rcases hpend with h1 | h2 | ⟨a, hmem, x, hx⟩
  · exact Or.inl (hbefore disk1 (by decide) h1)
  · exact Or.inr (Or.inl (hbefore disk2 (by decide) h2))
  · simp only [hidle.active, List.mem_singleton] at hmem
    subst hmem
    rw [ha.vector] at hv
    obtain rfl := Option.some.inj hv
    have hdisk := effect_of_handles hisr hh hx
    have hslave : s.pics.inta.line.1 = .slave := by
      rcases hdisk with heq | heq <;> rw [heq] <;> rfl
    have hreq := (ha.taken (hi.linked.real hi.irq.ready hidle.quiet hslave)).1
    rcases hdisk with heq | heq
    · rw [heq] at hreq
      exact Or.inl hreq
    · rw [heq] at hreq
      exact Or.inr (Or.inl hreq)

/-- **One step** of the machine. -/
theorem DiskInv.step (hisr : Function.Injective isr.of) (hi : DiskInv s)
    (h : Irq.Step (startPlatform isr dev idt drdy s₀ (readSector cd lba) (atapi cd)) e s t)
    (hc : Disciplined e s t) : DiskInv t := by
  have hirq :=
    h.inv (startPlatform_serves dev idt drdy s₀ hisr (readSector cd lba) (atapi cd)) hi.irq
  cases h with
  | program hidle h =>
      obtain ⟨hcalm, htimely⟩ := hi.calm.step hi.driver h
      exact ⟨hirq, hi.linked, step_inv hi.driver h htimely, hcalm⟩
  | outside h =>
      have hdriver := step_inv hi.driver h hc
      cases h with
      | act ha => exact ⟨hirq, hi.linked, hdriver, hi.calm.acts ha⟩
  | request l h =>
      refine ⟨hirq, hi.linked.request h, hi.driver, ?_⟩
      by_cases hdisk : l = disk1 ∨ l = disk2
      · exact hi.calm.of_presents hi.driver (hc hdisk) _
      · refine hi.calm.mono (Pending.of_kept ?_ (List.Subset.refl _))
        intro k hk hreq
        exact ((Irq.requested_request _ _ _).mp hreq).resolve_left (fun heq => hdisk (heq ▸ hk))
  | withdraw l =>
      refine ⟨hirq, hi.linked.withdraw hc, hi.driver,
        hi.calm.mono (Pending.of_kept ?_ (List.Subset.refl _))⟩
      intro k _ hreq
      exact ((Irq.requested_withdraw _ _ _).mp hreq).2
  | deliver hif hv hh =>
      exact ⟨hirq, hi.linked.inta hi.irq.ready (hi.irq.idle hif).quiet, hi.driver,
        hi.calm.mono (hi.pending_delivered hisr hif hv hh)⟩
  | stray => exact ⟨hirq, hi.linked, hi.driver, hi.calm⟩
  | exec hs htodo => exact hi.exec rfl hs htodo hirq
  | ret hs htodo =>
      obtain ⟨rfl, -⟩ := hi.irq.serving hs
      exact ⟨hirq, hi.linked, hi.driver,
        hi.calm.mono (Pending.of_kept (fun _ _ hreq => hreq) (List.nil_subset _))⟩

/-- Where a call of `cdrom_read_sector` starts, with the controllers and the flag as a machine
before has left them. -/
def readStart {σ : Type} (u : Irq.Machine σ (BitVec 8)) (cd : Cdrom) (flag : BitVec 8)
    (count : BitVec 16) : ReadMachine :=
  { pics := u.pics, enabled := u.enabled, stray := u.stray, active := [],
    data := ⟨.start cd, flag, ⟨.other, count⟩⟩ }

/-- **Reading with the controllers.**  After any run since `init_idt` that withdraws no request of
the second controller, with no interrupt of a channel under way: when the lines of the channels are
requested only while the drive presents its data, and no request of the second controller is
withdrawn, every word of a sector is taken in its data phase, in whatever order the driver, the
drive, the controllers and the handlers go on. -/
theorem readSector_requested (hisr : Function.Injective isr.of) (hq : Quiet s₀.dev.2)
    {σ ε : Type} {D : Driver σ} {E : Env ε} {d : Sys σ ε} {es : List Irq.Event}
    {u : Irq.Machine (Sys σ ε) (BitVec 8)}
    (hu : Irq.Trace (startPlatform isr dev idt drdy s₀ D E) (loaderStart isr dev idt drdy s₀ d)
      es u) (hkeep : ∀ l, .withdraw l ∈ es → l.1 = .master) (hidle : u.active = [])
    (h1 : ¬ Requested u.pics disk1) (h2 : ¬ Requested u.pics disk2)
    {flag : BitVec 8} {count : BitVec 16}
    (hrun : Irq.Run (startPlatform isr dev idt drdy s₀ (readSector cd lba) (atapi cd)) Disciplined
      (readStart u cd flag count) t) : Safe t.data := by
  have hP := startPlatform_serves dev idt drdy s₀ hisr D E
  have hi₀ : Irq.Inv 0x20 0x28 (loaderStart isr dev idt drdy s₀ d) :=
    loaderStart_inv dev idt drdy hq d
  have hiu := hu.inv hP hi₀
  have hphase := hiu.idle_of_active hidle
  have hlinked := hu.linked hP hi₀ hkeep
    (fun h => absurd h (loaderStart_requested dev idt drdy isr s₀ d link))
  have hstart : DiskInv (readStart u cd flag count) := by
    refine ⟨⟨hiu.ready, hiu.stray, Or.inl ⟨rfl, hphase.enabled, hphase.quiet⟩⟩, hlinked,
      start_inv cd count, ?_, fun hne => absurd rfl hne⟩
    rintro (h | h | ⟨a, ha, -⟩)
    · exact h1 h
    · exact h2 h
    · cases ha
  have hend := hrun.invariant (fun _ _ _ hi hstep hc => hi.step hisr hstep hc) hstart
  exact hend.driver.safe t.data.flag

/-! ### What wakes the driver -/

/-- The function of a channel, from the acknowledge of its line on. -/
theorem channel_trace (hisr : Function.Injective isr.of) {p : Pair} (hr : Ready p 0x20 0x28)
    (hquiet : Quiet p) {l : Line} {real : Bool} (hline : p.inta.line = l ∧ p.inta.real = real)
    {bits : BitVec 8}
    (hcode : isrCode (lineIsr l) = some [.effect bits, .out 0xA0 0x20, .out 0x20 0x20])
    (stray : Bool) (x : Sys Pc Atapi) : ∃ q,
      Irq.Trace (startPlatform isr dev idt drdy s₀ (readSector cd lba) (atapi cd))
        ⟨p, true, stray, [], x⟩ [.deliver l real, .exec, .exec, .exec, .ret]
        ⟨q, true, stray, [], { x with flag := x.flag ||| bits }⟩ := by
  obtain ⟨rfl, rfl⟩ := hline
  have hvector := (Pic.inta_answers hr hquiet).vector
  have hh := (handler_iff dev idt drdy s₀ hisr p.inta.line _).mpr ⟨_, hcode, rfl⟩
  let P := startPlatform isr dev idt drdy s₀ (readSector cd lba) (atapi cd)
  let y : Sys Pc Atapi := { x with flag := x.flag ||| bits }
  let q := p.inta.pics.outb 0xA0 0x20
  let m : ReadMachine := ⟨p, true, stray, [], x⟩
  let m₁ : ReadMachine := ⟨p.inta.pics, false, stray, [⟨p.inta.line, true,
    [.effect bits, .out 0xA0 0x20, .out 0x20 0x20]⟩], x⟩
  let m₂ : ReadMachine := ⟨p.inta.pics, false, stray, [⟨p.inta.line, true,
    [.out 0xA0 0x20, .out 0x20 0x20]⟩], y⟩
  let m₃ : ReadMachine := ⟨q, false, stray, [⟨p.inta.line, true, [.out 0x20 0x20]⟩], y⟩
  let m₄ : ReadMachine := ⟨q.outb 0x20 0x20, false, stray, [⟨p.inta.line, true, []⟩], y⟩
  have hdeliver : Irq.Step P (.deliver p.inta.line p.inta.real) m m₁ :=
    .deliver (P := P) (s := m) rfl hvector hh
  have heffect : Irq.Step P .exec m₁ m₂ := .exec (P := P) (s := m₁) rfl rfl
  have hslave : Irq.Step P .exec m₂ m₃ := .exec (P := P) (s := m₂) rfl rfl
  have hmaster : Irq.Step P .exec m₃ m₄ := .exec (P := P) (s := m₃) rfl rfl
  have hret : Irq.Step P .ret m₄ ⟨q.outb 0x20 0x20, true, stray, [], y⟩ :=
    .ret (P := P) (s := m₄) rfl rfl
  exact ⟨_, .cons hdeliver (.cons heffect (.cons hslave (.cons hmaster (.single hret))))⟩

theorem wake_trace (p : Pair) (enabled stray : Bool) {flag : BitVec 8} (hflag : flag ≠ 0)
    (e : Atapi) : Irq.Trace (startPlatform isr dev idt drdy s₀ (readSector cd lba) (atapi cd))
      ⟨p, enabled, stray, [], ⟨.await, flag, e⟩⟩ [.program, .program, .program]
      ⟨p, enabled, stray, [], ⟨.transfer e.count (e.count.toNat / 2) [], flag, e⟩⟩ := by
  have hhigh : e.Shows cd (cd.io_port + 0x05) ((e.count >>> 8).setWidth 8) := by
    simp [Atapi.Shows]
  have hlow : e.Shows cd (cd.io_port + 0x04) (e.count.setWidth 8) := by simp [Atapi.Shows]
  have hwake : Pc.resume .await (.ofByte flag) = .countHigh := if_neg hflag
  have hcount : Pc.resume (.countLow ((e.count >>> 8).setWidth 8))
      (.ofByte (e.count.setWidth 8)) = .transfer e.count (e.count.toNat / 2) [] := by
    rw [resume_countLow, registerPair_split]
  have hread : Step (readSector cd lba) (atapi cd) .driver ⟨.await, flag, e⟩
      ⟨Pc.resume .await (.ofByte flag), flag, e⟩ := .readFlag rfl
  have hlast : Step (readSector cd lba) (atapi cd) .driver
      ⟨.countLow ((e.count >>> 8).setWidth 8), flag, e⟩ ⟨Pc.resume
        (.countLow ((e.count >>> 8).setWidth 8)) (.ofByte (e.count.setWidth 8)), flag, e⟩ :=
    .serve rfl (.inb hlow)
  rw [hwake] at hread
  rw [hcount] at hlast
  exact .cons (.program rfl hread) (.cons (.program rfl (.serve rfl (.inb hhigh)))
    (.single (.program rfl hlast)))

theorem undisturbed_run {p : Pair} {enabled stray : Bool} {x y : Sys Pc Atapi}
    (h : Run (readSector cd lba) (atapi cd) Undisturbed x y) :
    Irq.Run (startPlatform isr dev idt drdy s₀ (readSector cd lba) (atapi cd)) Disciplined
      ⟨p, enabled, stray, [], x⟩ ⟨p, enabled, stray, [], y⟩ := by
  induction h with
  | refl => exact Relation.ReflTransGen.refl
  | tail _ hlast ih =>
      obtain ⟨a, hstep, hc⟩ := hlast
      cases a with
      | driver => exact ih.tail ⟨.program, .program rfl hstep, trivial⟩
      | env => exact ih.tail ⟨.outside, .outside hstep, fun hf => absurd hf hc⟩
      | interrupt => exact hc.elim

theorem word_step (cd : Cdrom) (lba : BitVec 32) (flag : BitVec 8) (rd_size count : BitVec 16)
    (left : ℕ) (words : List (BitVec 16)) (w : BitVec 16) :
    Step (readSector cd lba) (atapi cd) .driver
      ⟨.transfer rd_size (left + 2) words, flag, ⟨.data (left + 2), count⟩⟩
      ⟨.transfer rd_size (left + 1) (words ++ [w]), flag, ⟨.data (left + 1), count⟩⟩ := by
  have hnext : Pc.resume (.transfer rd_size (left + 2) words) (.ofWords [w]) =
      .transfer rd_size (left + 1) (words ++ [w]) := by
    rw [resume_transfer, if_neg (by simp)]
    rfl
  have hserve : Atapi.Serve cd (.insw cd.io_port (left + 2)) ⟨.data (left + 2), count⟩
      (.ofWords [w]) ⟨.data (left + 1), count⟩ := .inswWord cd.io_port (left + 1) w _
  have hstep := Step.serve (D := readSector cd lba) (E := atapi cd)
    (s := ⟨.transfer rd_size (left + 2) words, flag, ⟨.data (left + 2), count⟩⟩) rfl hserve
  change Step _ _ _ _ ⟨Pc.resume (.transfer rd_size (left + 2) words) (.ofWords [w]), _, _⟩
    at hstep
  rw [hnext] at hstep
  exact hstep

/-- A read as it should be: the drive takes the packet, presents its block and asks, the function
of its channel sets the flag, and the driver takes a word. -/
theorem word_run (hisr : Function.Injective isr.of) {p : Pair} {stray : Bool} {flag : BitVec 8}
    {count : BitVec 16}
    (hi : Irq.Inv 0x20 0x28
      (⟨p, true, stray, [], ⟨.start cd, flag, ⟨.other, count⟩⟩⟩ : ReadMachine))
    (hnone : ∀ l, ¬ Requested p l) (w : BitVec 16) : ∃ q,
      Irq.Run (startPlatform isr dev idt drdy s₀ (readSector cd lba) (atapi cd)) Disciplined
        ⟨p, true, stray, [], ⟨.start cd, flag, ⟨.other, count⟩⟩⟩
        ⟨q, true, stray, [], ⟨.transfer 0x0800 1023 [w], 1, ⟨.data 1023, 0x0800⟩⟩⟩ := by
  have hP := startPlatform_serves dev idt drdy s₀ hisr (readSector cd lba) (atapi cd)
  have hcount : (0x0800 : BitVec 16) ≠ 0 := by decide
  have hpresented := (packet_run cd lba flag count).trans
    (atapi_act (.present 0x0800 hcount) (by simp) (Run.refl _))
  have hpresents : Presents ⟨.data 1024, 0x0800⟩ := Or.inl ⟨1023, rfl⟩
  have hask := Irq.Step.request
    (P := startPlatform isr dev idt drdy s₀ (readSector cd lba) (atapi cd))
    (s := ⟨p, true, stray, [], ⟨.await, 0, ⟨.data 1024, 0x0800⟩⟩⟩) disk1 (by simp [disk1, link])
  have hi1 := hask.inv hP (hi.data _)
  have hlink := Irq.ask_link
    (P := startPlatform isr dev idt drdy s₀ (readSector cd lba) (atapi cd)) (i := 6) hi1
    ((Irq.requested_request _ _ _).mpr (Or.inl rfl)) (hi1.idle rfl).quiet
  have hi2 := hlink.inv hP hi1
  have hreq : ∀ l, Requested ((p.request disk1).request link) l ↔ l = link ∨ l = disk1 := by
    intro l
    rw [Irq.requested_request, Irq.requested_request, or_iff_left (hnone l)]
  have hanswer := Irq.inta_requested (i := 6) hi2.ready (hi2.idle rfl).quiet
    ((hreq _).mpr (Or.inl rfl)) ((hreq _).mpr (Or.inr rfl))
    (fun l hl hl' => ((hreq l).mp hl').resolve_left hl)
  obtain ⟨q, hserved⟩ : ∃ q, Irq.Trace
      (startPlatform isr dev idt drdy s₀ (readSector cd lba) (atapi cd))
      ⟨(p.request disk1).request link, true, stray, [], ⟨.await, 0, ⟨.data 1024, 0x0800⟩⟩⟩
      [.deliver disk1 true, .exec, .exec, .exec, .ret]
      ⟨q, true, stray, [], ⟨.await, 1, ⟨.data 1024, 0x0800⟩⟩⟩ :=
    channel_trace hisr hi2.ready (hi2.idle rfl).quiet hanswer rfl stray _
  have hwoken : Irq.Trace (startPlatform isr dev idt drdy s₀ (readSector cd lba) (atapi cd))
      ⟨q, true, stray, [], ⟨.await, 1, ⟨.data 1024, 0x0800⟩⟩⟩ [.program, .program, .program]
      ⟨q, true, stray, [], ⟨.transfer 0x0800 1024 [], 1, ⟨.data 1024, 0x0800⟩⟩⟩ :=
    wake_trace q true stray (by decide) _
  have hword := word_step cd lba 1 0x0800 0x0800 1022 [] w
  refine ⟨q, (undisturbed_run hpresented).trans ?_⟩
  refine Irq.Run.head hask (fun _ => hpresents) (Irq.Run.head hlink ?_ ?_)
  · intro h
    rcases h with h | h <;> cases h
  · refine (hserved.run (by simp [Disciplined])).trans ?_
    refine (hwoken.run (by simp [Disciplined])).trans ?_
    exact Irq.Run.head (.program rfl hword) trivial Relation.ReflTransGen.refl

/-- **A false answer wakes the driver.**  While it waits for a drive that works on a packet, any
other device of the second controller that takes its request back before the acknowledge raises
vector 47, whose handler sets the flag, and the driver goes on to take words that are not there. -/
theorem falseAnswer_unsafe (hisr : Function.Injective isr.of) (hq : Quiet s₀.dev.2)
    {d : Sys Pc Atapi} {es : List Irq.Event}
    (hs : Irq.Trace (startPlatform isr dev idt drdy s₀ (readSector cd lba) (atapi cd))
      (loaderStart isr dev idt drdy s₀ d) es s) (hidle : s.active = [])
    (hnone : ∀ l, ¬ Requested s.pics l) (hwait : s.data.driver = .await)
    (hphase : ∀ n, s.data.env.phase ≠ .data (n + 1)) (hcount : 2 ≤ s.data.env.count.toNat)
    (i : Fin 8) :
    ∃ u v t, Irq.Trace (startPlatform isr dev idt drdy s₀ (readSector cd lba) (atapi cd)) s
        [.request (.slave, i), .request link, .withdraw (.slave, i)] u ∧
      u.pics.inta.vector = some 47 ∧
      Irq.Trace (startPlatform isr dev idt drdy s₀ (readSector cd lba) (atapi cd)) u
        [.deliver disk2 false, .exec, .exec, .exec, .ret] v ∧
      v.data = { s.data with flag := irq_disk2 s.data.flag } ∧
      Irq.Trace (startPlatform isr dev idt drdy s₀ (readSector cd lba) (atapi cd)) v
        [.program, .program, .program] t ∧ ¬ Safe t.data := by
  have hP := startPlatform_serves dev idt drdy s₀ hisr (readSector cd lba) (atapi cd)
  have hinv := hs.inv hP (loaderStart_inv dev idt drdy hq d)
  have hphase' := hinv.idle_of_active hidle
  obtain ⟨p, hp, hanswer⟩ := Irq.withdrawn_false hP hinv hphase' hnone i
  have hinv' := hp.inv hP hinv
  have hquiet : Quiet p := (hinv'.idle hphase'.enabled).quiet
  obtain ⟨p₀, enabled, stray, active, ⟨pc, flag, e⟩⟩ := s
  obtain rfl : active = [] := hidle
  obtain rfl : pc = .await := hwait
  obtain rfl : enabled = true := hphase'.enabled
  have hvector : p.inta.vector = some 47 := by
    rw [(Pic.inta_answers hinv'.ready hquiet).vector, hanswer.1]
    rfl
  obtain ⟨q, hq'⟩ : ∃ q, Irq.Trace
      (startPlatform isr dev idt drdy s₀ (readSector cd lba) (atapi cd))
      ⟨p, true, stray, [], ⟨.await, flag, e⟩⟩ [.deliver disk2 false, .exec, .exec, .exec, .ret]
      ⟨q, true, stray, [], ⟨.await, irq_disk2 flag, e⟩⟩ :=
    channel_trace hisr hinv'.ready hquiet hanswer rfl stray _
  have hset : flag ||| 0x02 ≠ 0 := by
    intro h0
    have hbit := congrArg (fun v : BitVec 8 => v.getLsbD 1) h0
    simp at hbit
  exact ⟨_, _, _, hp, hvector, hq', rfl, wake_trace q true stray hset e,
    transfer_unsafe _ hphase hcount⟩

end run

/-! ### A machine -/

def sampleIsr : IsrAddresses where
  exception := 0x3000
  exception_err := 0x3010
  irq_low := 0x3020
  irq_high := 0x3030
  irq_disk1 := 0x3040
  irq_disk2 := 0x3050

theorem sampleIsr_injective : Function.Injective sampleIsr.of := by
  intro m n h
  cases m <;> cases n <;> first | rfl | exact absurd h (by decide)

theorem absent_length (_ : BitVec 16) (n : ℕ) (_ : Unit) :
    (List.replicate n (0xFFFF : BitVec 16)).length = n :=
  List.length_replicate

/-- No device at any port. -/
def absentDevice : Device Unit where
  inb _ d := (0xFF, d)
  outb _ _ d := d
  insw _ n d := (List.replicate n 0xFFFF, d)
  outsw _ _ d := d
  irq d := (0, d)
  insw_length := absent_length

/-- The controllers as the firmware has set them up, with a request of the timer. -/
def firmwarePics : Pair where
  master :=
    { stage := .operation, cascaded := true, needsIcw4 := true, base := 0x08, icw3 := 0x04,
      mode := 0x01, irr := {0}, isr := ∅, imr := ∅ }
  slave :=
    { stage := .operation, cascaded := true, needsIcw4 := true, base := 0x70, icw3 := 0x02,
      mode := 0x01, irr := ∅, isr := ∅, imr := ∅ }

def beforeIdt : IdtState (Unit × Pair) where
  mem := fun _ => 0
  data_ready := 0
  idtr := { base := 0, limit := 0x3FF }
  enabled := false
  dev := ((), firmwarePics)

/-- A sector is to be read right after `init_idt`. -/
def sampleStart (driver : Pc) (e : Atapi) : ReadMachine :=
  loaderStart sampleIsr absentDevice 0x5000 0 beforeIdt ⟨driver, 0, e⟩

abbrev samplePlatform : Irq.Platform (Sys Pc Atapi) (BitVec 8) :=
  startPlatform sampleIsr absentDevice 0x5000 0 beforeIdt (readSector plainCdrom 16)
    (atapi plainCdrom)

/-- A key is pressed while a sector is read. -/
theorem initIdt_reliable_key : ∃ es t, .deliver (.master, 1) true ∈ es ∧ Irq.Reliable samplePlatform
    (sampleStart (.start plainCdrom) ⟨.other, 0⟩) es t := by
  have hinv : Irq.Inv 0x20 0x28 (sampleStart (.start plainCdrom) ⟨.other, 0⟩) :=
    loaderStart_inv absentDevice 0x5000 0 (s := beforeIdt) ⟨rfl, rfl⟩ _
  have hP := startPlatform_serves absentDevice 0x5000 0 beforeIdt sampleIsr_injective
    (readSector plainCdrom 16) (atapi plainCdrom)
  have hkey := Irq.Step.request (P := samplePlatform)
    (s := sampleStart (.start plainCdrom) ⟨.other, 0⟩) (.master, 1) (by simp [link])
  have hreq : Requested ((sampleStart (.start plainCdrom) ⟨.other, 0⟩).pics.request (.master, 1))
      (.master, 1) := (Irq.requested_request _ _ _).mpr (Or.inl rfl)
  obtain ⟨es, t, ht, -, hdone⟩ := Irq.served hP (hkey.inv hP hinv) (by simp [link]) hreq
  exact ⟨_, t, List.mem_cons_of_mem _ hdone,
    initIdt_reliable absentDevice 0x5000 0 sampleIsr_injective ⟨rfl, rfl⟩ (.cons hkey ht)⟩

/-- The machine when a key was pressed and its request given up. -/
def afterKey : ReadMachine :=
  let s := sampleStart (.start plainCdrom) ⟨.other, 0⟩
  { s with pics := (s.pics.request (.master, 1)).withdraw (.master, 1) }

/-- A sector is read behind it. -/
theorem readSector_requested_word :
    Safe ⟨.transfer 0x0800 1023 [0x4243], 1, ⟨.data 1023, 0x0800⟩⟩ := by
  have hkey : Irq.Trace samplePlatform (sampleStart (.start plainCdrom) ⟨.other, 0⟩)
      [.request (.master, 1), .withdraw (.master, 1)] afterKey :=
    .cons (.request (.master, 1) (by simp [link])) (.single (.withdraw (.master, 1)))
  have hnone : ∀ l, ¬ Requested afterKey.pics l := by
    intro l hl
    have hboth := (Irq.requested_withdraw _ _ _).mp hl
    rw [Irq.requested_request] at hboth
    exact hboth.2.elim hboth.1 (loaderStart_requested absentDevice _ _ _ _ _ l)
  have hinv := hkey.inv (startPlatform_serves absentDevice 0x5000 0 beforeIdt sampleIsr_injective
    (readSector plainCdrom 16) (atapi plainCdrom))
    (loaderStart_inv absentDevice 0x5000 0 (s := beforeIdt) ⟨rfl, rfl⟩ _)
  obtain ⟨q, hrun⟩ : ∃ q, Irq.Run samplePlatform Disciplined
      (readStart afterKey plainCdrom 0 0)
      ⟨q, true, false, [], ⟨.transfer 0x0800 1023 [0x4243], 1, ⟨.data 1023, 0x0800⟩⟩⟩ :=
    word_run sampleIsr_injective hinv hnone 0x4243
  exact readSector_requested sampleIsr_injective ⟨rfl, rfl⟩ hkey (by simp) rfl (hnone disk1)
    (hnone disk2) hrun

/-- The mouse port gives a false answer while the drive works on its packet. -/
theorem falseAnswer_unsafe_mouse : ∃ u v t, Irq.Trace samplePlatform
      (sampleStart .await ⟨.busy, 0x0800⟩)
      [.request (.slave, 4), .request link, .withdraw (.slave, 4)] u ∧
    u.pics.inta.vector = some 47 ∧
    Irq.Trace samplePlatform u [.deliver disk2 false, .exec, .exec, .exec, .ret] v ∧
    v.data = ⟨.await, irq_disk2 0, ⟨.busy, 0x0800⟩⟩ ∧
    Irq.Trace samplePlatform v [.program, .program, .program] t ∧ ¬ Safe t.data :=
  falseAnswer_unsafe (s := sampleStart .await ⟨.busy, 0x0800⟩) sampleIsr_injective ⟨rfl, rfl⟩
    (.nil _) rfl (loaderStart_requested absentDevice _ _ _ _ _) rfl (fun _ h => nomatch h)
    (by show 2 ≤ (0x0800 : BitVec 16).toNat; decide) 4

end Ziemniak.Stage2
