import Ziemniak.Kernel.Descriptors
import Ziemniak.Kernel.PicWrappers
import Ziemniak.Stage2.HardwareInterrupts

/-! # Hardware interrupts of the kernel

`interrupts_init` sets the interrupt controllers up again, as the loader left them.  The loader
jumps to the kernel between two handlers, so nothing is in service then, and the kernel's own
vectors and wrappers serve every line from there on (`interruptsInit_reliable`). -/

namespace Ziemniak.Kernel

open BareMetal
open BareMetal.Pic (Line Pair Quiet Requested link lineVector eois)

/-- The port writes of a wrapper as actions. -/
def wrapperAction : PortEvent → Option (Irq.Action Empty)
  | .outb port v => some (.out port v)
  | _ => none

/-- The way of a vector through the table to a wrapper, which interrupts any processor and calls
any function. -/
def WrapperHandles (isr_tab : ℕ → BitVec 64) (idtr : TableReg) (m : Mem) (v : BitVec 8)
    (h : Irq.Handler Empty) : Prop :=
  ∃ g, ∃ n : Fin 16, ∃ isr c rip sp ret, vector64 idtr m v.toNat = some g ∧
    isr_tab (32 + n) = g.target ∧
    h = { masks := g.kind == .interrupt
          code := (picHandled n isr c rip sp ret).2.filterMap wrapperAction }

/-- The number of a line. -/
def lineNumber : Line → Fin 16
  | (.master, i) => i.castAdd 8
  | (.slave, i) => i.natAdd 8

theorem lineVector_number (l : Line) :
    (lineVector 0x20 0x28 l).toNat = 32 + (lineNumber l).val := by
  rw [Stage2.lineVector_toNat]
  obtain ⟨w, i⟩ := l
  cases w with
  | master => rfl
  | slave =>
      show 40 + i.val = 32 + (8 + i.val)
      omega

/-- A wrapper writes the ends of interrupt of its line, whatever it interrupts. -/
theorem outs_wrapper (l : Line) (isr : Cpu → Cpu) (c : Cpu) (rip sp ret : BitVec 64) :
    Irq.outs ((picHandled (lineNumber l) isr c rip sp ret).2.filterMap wrapperAction) =
      eois l.1 := by
  obtain ⟨w, i⟩ := l
  rw [picHandled_eq]
  cases w with
  | master =>
      have h : (lineNumber (.master, i)).val < 8 := i.isLt
      rw [if_pos h]
      rfl
  | slave =>
      have h : ¬ (lineNumber (.slave, i)).val < 8 := by
        show ¬ 8 + i.val < 8
        omega
      rw [if_neg h]
      rfl

section init

variable {δ σ : Type} (isr_tab : ℕ → BitVec 64) (idt : ℕ) (dev : Device δ)
  (s : IntState (δ × Pair))

/-- The kernel at work after `interrupts_init`. -/
def kernelPlatform (program outside : σ → σ → Prop) : Irq.Platform σ Empty where
  handler := WrapperHandles isr_tab (interruptsInit isr_tab idt dev.withPics s).2.idtr
    (interruptsInit isr_tab idt dev.withPics s).2.mem
  apply a _ := a.elim
  program := program
  outside := outside

def kernelStart (d : σ) : Irq.Machine σ Empty :=
  let s := (interruptsInit isr_tab idt dev.withPics s).2
  { pics := s.dev.2, enabled := s.enabled, stray := false, active := [], data := d }

variable {isr_tab s}

theorem kernelPlatform_serves (htab : Set.InjOn isr_tab (Set.Iio 48))
    (program outside : σ → σ → Prop) :
    Irq.Serves (kernelPlatform isr_tab idt dev s program outside) 0x20 0x28 := by
  intro l _
  have hgate : vector64 (interruptsInit isr_tab idt dev.withPics s).2.idtr
      (interruptsInit isr_tab idt dev.withPics s).2.mem (lineVector 0x20 0x28 l).toNat =
        some (Stage2.plainGate (isr_tab (32 + lineNumber l)) (32 + lineNumber l)) := by
    rw [interruptsInit_vectors, lineVector_number, if_pos (by omega)]
  have hkind : (Stage2.plainGate (isr_tab (32 + lineNumber l)) (32 + lineNumber l)).kind =
      .interrupt := if_neg (by omega)
  constructor
  · exact ⟨_, _, lineNumber l, emptyIsr, countingCpu, 0, 0, 0, hgate, rfl, rfl⟩
  · rintro h ⟨g, n, isr, c, rip, sp, ret, hg, hn, rfl⟩
    obtain rfl := Option.some.inj (hgate.symm.trans hg)
    have heq : 32 + n.val = 32 + (lineNumber l).val :=
      htab (Set.mem_Iio.mpr (by omega)) (Set.mem_Iio.mpr (by omega)) hn
    obtain rfl : n = lineNumber l := Fin.ext (by omega)
    exact ⟨by rw [hkind]; rfl, outs_wrapper l isr c rip sp ret⟩

theorem kernelStart_inv (hq : Quiet s.dev.2) (d : σ) :
    Irq.Inv 0x20 0x28 (kernelStart isr_tab idt dev s d) := by
  obtain ⟨hready, hmaster, hslave⟩ := Pic.writeAll_setup s.dev.2 0x20 0x28
  exact ⟨hready, rfl, Or.inl ⟨rfl, rfl, hmaster.trans hq.1, hslave.trans hq.2⟩⟩

end init

/-- **From the loader to the kernel.**  The loader runs from its `init_idt` on, with any interrupts,
and jumps to the kernel while no handler runs; requests may still come and go until the kernel has
set the controllers up.  Then every run of the kernel from `interrupts_init` on is reliable. -/
theorem interruptsInit_reliable {δ δ' ρ ε σ : Type} {isr : Stage2.IsrAddresses} {dev : Device δ}
    {idt : ℕ} {drdy : BitVec 32} {s₀ : Stage2.IdtState (δ × Pair)} {D : Driver ρ} {E : Env ε}
    {d₀ : Sys ρ ε} {fs : List Irq.Event} {u : Irq.Machine (Sys ρ ε) (BitVec 8)}
    (hisr : Function.Injective isr.of) (hq : Quiet s₀.dev.2)
    (hu : Irq.Trace (Stage2.startPlatform isr dev idt drdy s₀ D E)
      (Stage2.loaderStart isr dev idt drdy s₀ d₀) fs u) (hidle : u.active = [])
    {isr_tab : ℕ → BitVec 64} (htab : Set.InjOn isr_tab (Set.Iio 48)) {kidt : ℕ}
    {kdev : Device δ'} {s : IntState (δ' × Pair)} {r r' : Finset (Fin 8)}
    (hpics : s.dev.2 = u.pics.setIrr r r') {program outside : σ → σ → Prop} {d : σ}
    {es : List Irq.Event} {t : Irq.Machine σ Empty}
    (h : Irq.Trace (kernelPlatform isr_tab kidt kdev s program outside)
      (kernelStart isr_tab kidt kdev s d) es t) :
    Irq.Reliable (kernelPlatform isr_tab kidt kdev s program outside)
      (kernelStart isr_tab kidt kdev s d) es t := by
  have hiu := hu.inv (Stage2.startPlatform_serves dev idt drdy s₀ hisr D E)
    (Stage2.loaderStart_inv dev idt drdy hq d₀)
  have hquiet : Quiet s.dev.2 := by
    rw [hpics, Pic.quiet_setIrr]
    exact (hiu.idle_of_active hidle).quiet
  exact h.reliable (kernelPlatform_serves kidt kdev htab program outside)
    (kernelStart_inv kidt kdev hquiet d)

/-- The kernel behind a loader that had no interrupts. -/
def sampleKernel : IntState (Unit × Pair) where
  mem := fun _ => 0
  idtr := { base := 0, limit := 0 }
  enabled := false
  dev := ((), (Stage2.sampleStart .await ⟨.busy, 0⟩).pics)

abbrev sampleKernelPlatform : Irq.Platform Unit Empty :=
  kernelPlatform (BitVec.ofNat 64) 0x6000 Stage2.absentDevice sampleKernel
    (fun _ _ => False) (fun _ _ => False)

/-- A disk asks while the kernel runs. -/
theorem interruptsInit_reliable_disk : ∃ es t, .deliver Stage2.disk1 true ∈ es ∧
    Irq.Reliable sampleKernelPlatform
      (kernelStart (BitVec.ofNat 64) 0x6000 Stage2.absentDevice sampleKernel ()) es t := by
  have htab : Set.InjOn (BitVec.ofNat 64) (Set.Iio 48) := by
    intro a ha b hb heq
    have htoNat := congrArg BitVec.toNat heq
    rw [BitVec.toNat_ofNat, BitVec.toNat_ofNat] at htoNat
    have ha' : a < 48 := ha
    have hb' : b < 48 := hb
    omega
  have hP : Irq.Serves sampleKernelPlatform 0x20 0x28 :=
    kernelPlatform_serves 0x6000 Stage2.absentDevice htab (fun _ _ => False) (fun _ _ => False)
  have hinv : Irq.Inv 0x20 0x28
      (kernelStart (BitVec.ofNat 64) 0x6000 Stage2.absentDevice sampleKernel ()) :=
    kernelStart_inv 0x6000 Stage2.absentDevice (s := sampleKernel) ⟨rfl, rfl⟩ ()
  have hdisk := Irq.Step.request (P := sampleKernelPlatform)
    (s := kernelStart (BitVec.ofNat 64) 0x6000 Stage2.absentDevice sampleKernel ()) Stage2.disk1
    (by simp [Stage2.disk1, link])
  have hreq : Requested ((kernelStart (BitVec.ofNat 64) 0x6000 Stage2.absentDevice sampleKernel
      ()).pics.request Stage2.disk1) Stage2.disk1 := (Irq.requested_request _ _ _).mpr (Or.inl rfl)
  obtain ⟨es, t, ht, -, hdone⟩ := Irq.served hP (hdisk.inv hP hinv) (by decide) hreq
  have hloader : Irq.Trace Stage2.samplePlatform (Stage2.sampleStart .await ⟨.busy, 0⟩) []
      (Stage2.sampleStart .await ⟨.busy, 0⟩) := .nil _
  have hpics : sampleKernel.dev.2 =
      (Stage2.sampleStart .await ⟨.busy, 0⟩).pics.setIrr ∅ ∅ := rfl
  exact ⟨_, t, List.mem_cons_of_mem _ hdone, interruptsInit_reliable (s := sampleKernel)
    Stage2.sampleIsr_injective ⟨rfl, rfl⟩ hloader rfl htab hpics (.cons hdisk ht)⟩

end Ziemniak.Kernel
