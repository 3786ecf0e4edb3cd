import Mathlib.Logic.Relation
import Ziemniak.BareMetal.Ports

/-! # Drivers, interrupts and what is around them

A `Driver` is the control flow of a routine that talks to ports and looks at a flag which
interrupt handlers write: in every state it makes a `Request` and goes on with the `Answer`.
An `Env` is everything else: it serves the port accesses, changes by itself, and lets handlers
run.  `Step` interleaves the three in every order, and a `Run C` is a run all of whose steps
meet the condition `C`.

What one step preserves a run preserves (`Run.invariant`).  A `Device` is an environment
(`Device.env`), and there polling a port and waiting for the flag are runs (`Run.poll`,
`Run.awaitFlag`). -/

namespace BareMetal

/-- What a driver asks for next. -/
inductive Request
  | outb (port : BitVec 16) (v : BitVec 8)
  | inb (port : BitVec 16)
  | outsw (port : BitVec 16) (ws : List (BitVec 16))
  | insw (port : BitVec 16) (n : ℕ)
  | clearFlag
  | readFlag
deriving DecidableEq, Repr

/-- The byte or the words read. -/
structure Answer where
  byte : BitVec 8
  words : List (BitVec 16)
deriving DecidableEq, Repr

namespace Answer

def done : Answer := ⟨0, []⟩
def ofByte (v : BitVec 8) : Answer := ⟨v, []⟩
def ofWords (ws : List (BitVec 16)) : Answer := ⟨0, ws⟩

end Answer

/-- `request` is `none` when the driver has returned. -/
structure Driver (σ : Type) where
  request : σ → Option Request
  resume : σ → Answer → σ

/-- The environment: how it serves a port access, what it does by itself, and which handlers
run when.  A handler maps the flag to its new value. -/
structure Env (ε : Type) where
  serve : Request → ε → Answer → ε → Prop
  act : ε → ε → Prop
  interrupt : (BitVec 8 → BitVec 8) → ε → ε → Prop

structure Sys (σ ε : Type) where
  driver : σ
  flag : BitVec 8
  env : ε

/-- Who takes a step. -/
inductive Act
  | driver
  | env
  | interrupt
deriving DecidableEq, Repr

variable {σ ε : Type}

inductive Step (D : Driver σ) (E : Env ε) : Act → Sys σ ε → Sys σ ε → Prop
  | serve {s : Sys σ ε} {r : Request} {a : Answer} {e : ε} (hr : D.request s.driver = some r)
      (h : E.serve r s.env a e) :
      Step D E .driver s { s with driver := D.resume s.driver a, env := e }
  | clearFlag {s : Sys σ ε} (hr : D.request s.driver = some .clearFlag) :
      Step D E .driver s { s with driver := D.resume s.driver .done, flag := 0 }
  | readFlag {s : Sys σ ε} (hr : D.request s.driver = some .readFlag) :
      Step D E .driver s { s with driver := D.resume s.driver (.ofByte s.flag) }
  | act {s : Sys σ ε} {e : ε} (h : E.act s.env e) : Step D E .env s { s with env := e }
  | interrupt {s : Sys σ ε} {f : BitVec 8 → BitVec 8} {e : ε} (h : E.interrupt f s.env e) :
      Step D E .interrupt s { s with flag := f s.flag, env := e }

/-- A condition on steps: who takes it, from where, to where. -/
abbrev StepCond (σ ε : Type) := Act → Sys σ ε → Sys σ ε → Prop

def anyStep : StepCond σ ε := fun _ _ _ => True

/-- The runs whose steps all meet `C`. -/
def Run (D : Driver σ) (E : Env ε) (C : StepCond σ ε) : Sys σ ε → Sys σ ε → Prop :=
  Relation.ReflTransGen (fun s s' => ∃ a, Step D E a s s' ∧ C a s s')

namespace Run

variable {D : Driver σ} {E : Env ε} {C : StepCond σ ε} {s t u : Sys σ ε}

theorem refl (s : Sys σ ε) : Run D E C s s := Relation.ReflTransGen.refl

theorem trans (h : Run D E C s t) (h' : Run D E C t u) : Run D E C s u :=
  Relation.ReflTransGen.trans h h'

theorem head {a : Act} (hs : Step D E a s t) (hc : C a s t) (h : Run D E C t u) :
    Run D E C s u := Relation.ReflTransGen.head ⟨a, hs, hc⟩ h

theorem mono {C' : StepCond σ ε} (hC : ∀ a s s', C a s s' → C' a s s') (h : Run D E C s t) :
    Run D E C' s t := by
  induction h with
  | refl => exact refl s
  | tail _ hlast ih =>
      obtain ⟨a, hst, hc⟩ := hlast
      exact trans ih (head hst (hC a _ _ hc) (refl _))

/-- What every step preserves, a run preserves. -/
theorem invariant {I : Sys σ ε → Prop}
    (hstep : ∀ a s s', I s → Step D E a s s' → C a s s' → I s') (h : Run D E C s t) (hs : I s) :
    I t := by
  induction h with
  | refl => exact hs
  | tail _ hlast ih =>
      obtain ⟨a, hst, hc⟩ := hlast
      exact hstep a _ _ ih hst hc

end Run

/-! ### Devices -/

/-- A device and the handlers of its interrupts, which run when the driver looks at the flag. -/
def Device.env {δ : Type} (dev : Device δ) : Env δ where
  serve r d a d' :=
    match r with
    | .outb port v => a = .done ∧ d' = dev.outb port v d
    | .inb port => a = .ofByte (dev.inb port d).1 ∧ d' = (dev.inb port d).2
    | .outsw port ws => a = .done ∧ d' = dev.outsw port ws d
    | .insw port n => a = .ofWords (dev.insw port n d).1 ∧ d' = (dev.insw port n d).2
    | _ => False
  act _ _ := False
  interrupt f d d' := f = (fun flag => flag ||| (dev.irq d).1) ∧ d' = (dev.irq d).2

namespace Run

variable {δ : Type} {dev : Device δ} {D : Driver σ} {p : σ} {flag : BitVec 8} {d : δ}
  {u : Sys σ δ}

theorem outb {port : BitVec 16} {v : BitVec 8} (hr : D.request p = some (.outb port v))
    (h : Run D dev.env anyStep ⟨D.resume p .done, flag, dev.outb port v d⟩ u) :
    Run D dev.env anyStep ⟨p, flag, d⟩ u :=
  head (.serve (s := ⟨p, flag, d⟩) hr ⟨rfl, rfl⟩) trivial h

theorem inb {port : BitVec 16} (hr : D.request p = some (.inb port))
    (h : Run D dev.env anyStep ⟨D.resume p (.ofByte (dev.inb port d).1), flag, (dev.inb port d).2⟩
      u) : Run D dev.env anyStep ⟨p, flag, d⟩ u :=
  head (.serve (s := ⟨p, flag, d⟩) hr ⟨rfl, rfl⟩) trivial h

theorem outsw {port : BitVec 16} {ws : List (BitVec 16)}
    (hr : D.request p = some (.outsw port ws))
    (h : Run D dev.env anyStep ⟨D.resume p .done, flag, dev.outsw port ws d⟩ u) :
    Run D dev.env anyStep ⟨p, flag, d⟩ u :=
  head (.serve (s := ⟨p, flag, d⟩) hr ⟨rfl, rfl⟩) trivial h

theorem insw {port : BitVec 16} {n : ℕ} (hr : D.request p = some (.insw port n))
    (h : Run D dev.env anyStep
      ⟨D.resume p (.ofWords (dev.insw port n d).1), flag, (dev.insw port n d).2⟩ u) :
    Run D dev.env anyStep ⟨p, flag, d⟩ u :=
  head (.serve (s := ⟨p, flag, d⟩) hr ⟨rfl, rfl⟩) trivial h

theorem clearFlag (hr : D.request p = some .clearFlag)
    (h : Run D dev.env anyStep ⟨D.resume p .done, 0, dev.clearFlag d⟩ u) :
    Run D dev.env anyStep ⟨p, flag, d⟩ u :=
  head (.interrupt (s := ⟨p, flag, d⟩) ⟨rfl, rfl⟩) trivial
    (head (.clearFlag (s := ⟨p, flag ||| (dev.irq d).1, (dev.irq d).2⟩) hr) trivial h)

/-- A driver that stays where it is while the port is busy. -/
theorem poll {port : BitVec 16} (hr : D.request p = some (.inb port)) {busy : BitVec 8 → Bool}
    (hbusy : ∀ v, busy v = true → D.resume p (.ofByte v) = p) {fuel : ℕ} {v : BitVec 8} {d' : δ}
    (hp : dev.poll fuel port busy d = some (v, d'))
    (h : Run D dev.env anyStep ⟨D.resume p (.ofByte v), flag, d'⟩ u) :
    Run D dev.env anyStep ⟨p, flag, d⟩ u := by
  refine inb hr (trans ?_ h)
  refine (whileLoop_invariant (c := fun s : BitVec 8 × δ => busy s.1)
    (I := fun s : BitVec 8 × δ => Run D dev.env anyStep
      ⟨D.resume p (.ofByte (dev.inb port d).1), flag, (dev.inb port d).2⟩
      ⟨D.resume p (.ofByte s.1), flag, s.2⟩) ?_ (refl _) hp).1
  intro s s' hs hc hf
  obtain rfl := Option.some.inj hf
  refine trans hs ?_
  rw [hbusy s.1 hc]
  exact inb hr (refl _)

theorem awaitFlag (hr : D.request p = some .readFlag) {fuel : ℕ} {v : BitVec 8} {d' : δ}
    (hp : dev.awaitFlag fuel d = some (v, d'))
    (h : Run D dev.env anyStep ⟨D.resume p (.ofByte v), v, d'⟩ u) :
    Run D dev.env anyStep ⟨p, 0, d⟩ u := by
  refine trans ?_ h
  have hrun := (whileLoop_invariant (c := fun s : BitVec 8 × δ => s.1 == 0)
    (I := fun s : BitVec 8 × δ => Run D dev.env anyStep ⟨p, 0, d⟩ ⟨p, s.1, s.2⟩) ?_
    (refl _) hp).1
  · exact trans hrun (head (.readFlag (s := ⟨p, v, d'⟩) hr) trivial (refl _))
  · intro s s' hs _ hf
    obtain rfl := Option.some.inj hf
    exact trans hs (head (.interrupt (s := ⟨p, s.1, s.2⟩) ⟨rfl, rfl⟩) trivial (refl _))

end Run

end BareMetal
