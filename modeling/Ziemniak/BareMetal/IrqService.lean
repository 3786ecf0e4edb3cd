import Mathlib.Logic.Relation
import Ziemniak.BareMetal.Pic

/-! # Serving interrupts

A processor, a pair of interrupt controllers and everything around them, step by step: requests
come and go, the processor acknowledges one when its interrupt flag allows it, and the handler it
finds runs one action at a time.  The program and the outside world work on data of any type; a
handler may work on them too.

`Serves` is what is asked of the handlers: each is reached with the interrupt flag cleared, and
writes the ends of interrupt of its line and no other commands.  Then handlers do not nest, nothing
stays in service behind them (`Trace.inv`), every request is answered at most once and none is
lost (`Trace.count_le`, `Trace.requested`), and a line with a request is served in the end, whatever
else is requested (`served`).  A request that was withdrawn can be answered all the same, by another
line (`withdrawn_false`). -/

namespace BareMetal

namespace Irq

open Pic

/-- An action of a handler: a port write, or a change of the data. -/
inductive Action (α : Type)
  | out (port : BitVec 16) (v : BitVec 8)
  | effect (a : α)
deriving DecidableEq, Repr

/-- `masks` says that the way to the handler clears the interrupt flag. -/
structure Handler (α : Type) where
  masks : Bool
  code : List (Action α)
deriving DecidableEq, Repr

/-- A handler that runs: the line it was called for, the interrupt flag to go back to, and what
it has still to do. -/
structure Activation (α : Type) where
  line : Line
  saved : Bool
  todo : List (Action α)

/-- `stray` is set by an acknowledge that led to no handler; `active` has the innermost handler
first. -/
structure Machine (σ α : Type) where
  pics : Pair
  enabled : Bool
  stray : Bool
  active : List (Activation α)
  data : σ

/-- The handlers a vector may lead to, their effects, and what the program and the rest of the
world do to the data. -/
structure Platform (σ α : Type) where
  handler : BitVec 8 → Handler α → Prop
  apply : α → σ → σ
  program : σ → σ → Prop
  outside : σ → σ → Prop

variable {σ α : Type}

/-- The port writes of a handler. -/
def outs : List (Action α) → List (BitVec 16 × BitVec 8)
  | [] => []
  | .out port v :: todo => (port, v) :: outs todo
  | .effect _ :: todo => outs todo

def Machine.perform (P : Platform σ α) (s : Machine σ α) : Action α → Machine σ α
  | .out port v => { s with pics := s.pics.outb port v }
  | .effect a => { s with data := P.apply a s.data }

inductive Event
  | program
  | outside
  | request (l : Line)
  | withdraw (l : Line)
  | deliver (l : Line) (real : Bool)
  | stray
  | exec
  | ret
deriving DecidableEq, Repr

/-- A step.  The program waits while a handler runs; the second controller asks the first one
only when it has a request itself. -/
inductive Step (P : Platform σ α) : Event → Machine σ α → Machine σ α → Prop
  | program {s : Machine σ α} {d : σ} (hidle : s.active = []) (h : P.program s.data d) :
      Step P .program s { s with data := d }
  | outside {s : Machine σ α} {d : σ} (h : P.outside s.data d) :
      Step P .outside s { s with data := d }
  | request {s : Machine σ α} (l : Line) (h : l = link → s.pics.slave.pending.Nonempty) :
      Step P (.request l) s { s with pics := s.pics.request l }
  | withdraw {s : Machine σ α} (l : Line) :
      Step P (.withdraw l) s { s with pics := s.pics.withdraw l }
  | deliver {s : Machine σ α} {v : BitVec 8} {h : Handler α} (hif : s.enabled = true)
      (hv : s.pics.inta.vector = some v) (hh : P.handler v h) :
      Step P (.deliver s.pics.inta.line s.pics.inta.real) s
        { s with
          pics := s.pics.inta.pics
          enabled := !h.masks
          active := ⟨s.pics.inta.line, s.enabled, h.code⟩ :: s.active }
  | stray {s : Machine σ α} (hif : s.enabled = true)
      (hv : ∀ v h, s.pics.inta.vector = some v → ¬ P.handler v h) :
      Step P .stray s { s with stray := true }
  | exec {s : Machine σ α} {a : Activation α} {x : Action α} {todo : List (Action α)}
      {rest : List (Activation α)} (hs : s.active = a :: rest) (ha : a.todo = x :: todo) :
      Step P .exec s (({ s with active := { a with todo } :: rest } : Machine σ α).perform P x)
  | ret {s : Machine σ α} {a : Activation α} {rest : List (Activation α)}
      (hs : s.active = a :: rest) (ha : a.todo = []) :
      Step P .ret s { s with enabled := a.saved, active := rest }

/-- The runs, with their events. -/
inductive Trace (P : Platform σ α) : Machine σ α → List Event → Machine σ α → Prop
  | nil (s : Machine σ α) : Trace P s [] s
  | cons {s t u : Machine σ α} {e : Event} {es : List Event} (h : Step P e s t)
      (ht : Trace P t es u) : Trace P s (e :: es) u

variable {P : Platform σ α} {s t u : Machine σ α} {e : Event} {es fs : List Event}
  {b b' : BitVec 8}

theorem Trace.single (h : Step P e s t) : Trace P s [e] t := .cons h (.nil t)

theorem Trace.trans (h : Trace P s es t) (h' : Trace P t fs u) : Trace P s (es ++ fs) u := by
  induction h with
  | nil => exact h'
  | cons hstep _ ih => exact .cons hstep (ih h')

theorem Trace.append_iff : Trace P s (es ++ fs) u ↔ ∃ t, Trace P s es t ∧ Trace P t fs u := by
  constructor
  · intro h
    induction es generalizing s with
    | nil => exact ⟨s, .nil s, h⟩
    | cons e es ih =>
        cases h with
        | cons hstep hrest =>
            obtain ⟨t, ht, hu⟩ := ih hrest
            exact ⟨t, .cons hstep ht, hu⟩
  · rintro ⟨t, ht, hu⟩
    exact ht.trans hu

/-- The runs whose steps all meet the condition `C`. -/
def Run (P : Platform σ α) (C : Event → Machine σ α → Machine σ α → Prop) :
    Machine σ α → Machine σ α → Prop :=
  Relation.ReflTransGen (fun s t => ∃ e, Step P e s t ∧ C e s t)

theorem Run.head {C : Event → Machine σ α → Machine σ α → Prop} {s t u : Machine σ α} {e : Event}
    (h : Step P e s t) (hc : C e s t) (hr : Run P C t u) : Run P C s u :=
  Relation.ReflTransGen.head ⟨e, h, hc⟩ hr

theorem Trace.run {C : Event → Machine σ α → Machine σ α → Prop} (h : Trace P s es t)
    (hC : ∀ e ∈ es, ∀ u v, C e u v) : Run P C s t := by
  induction h with
  | nil => exact Relation.ReflTransGen.refl
  | cons hstep _ ih =>
      obtain ⟨he, hes⟩ := List.forall_mem_cons.mp hC
      exact Run.head hstep (he _ _) (ih hes)

theorem Run.invariant {C : Event → Machine σ α → Machine σ α → Prop} {I : Machine σ α → Prop}
    (hstep : ∀ e s t, I s → Step P e s t → C e s t → I t) (h : Run P C s t) (hs : I s) : I t := by
  induction h with
  | refl => exact hs
  | tail _ hlast ih =>
      obtain ⟨e, hst, hc⟩ := hlast
      exact hstep e _ _ ih hst hc

/-! ### Handlers do not nest, and nothing stays in service -/

/-- Every vector of a line leads to a handler of it, past the interrupt flag. -/
def Serves (P : Platform σ α) (b b' : BitVec 8) : Prop :=
  ∀ l ≠ link, (∃ h, P.handler (lineVector b b' l) h) ∧
    ∀ h, P.handler (lineVector b b' l) h → h.masks = true ∧ outs h.code = eois l.1

/-- The one handler that runs, and what is in service until it has written its commands. -/
structure Serving (s : Machine σ α) (a : Activation α) : Prop where
  active : s.active = [a]
  masked : s.enabled = false
  saved : a.saved = true
  line_ne : a.line ≠ link
  commands : ∀ w ∈ outs a.todo, IsEoi w
  settles : Quiet (s.pics.writeAll (outs a.todo))

/-- No handler runs: interrupts are let through, and nothing is in service. -/
structure Idle (s : Machine σ α) : Prop where
  active : s.active = []
  enabled : s.enabled = true
  quiet : Quiet s.pics

structure Inv (b b' : BitVec 8) (s : Machine σ α) : Prop where
  ready : Ready s.pics b b'
  stray : s.stray = false
  phase : Idle s ∨ ∃ a, Serving s a

theorem Inv.setIrr (h : Inv b b' s) (r r' : Finset (Fin 8)) :
    Inv b b' { s with pics := s.pics.setIrr r r' } := by
  refine ⟨h.ready.setIrr r r', h.stray, ?_⟩
  rcases h.phase with hidle | ⟨a, ha⟩
  · exact Or.inl ⟨hidle.active, hidle.enabled, hidle.quiet⟩
  · refine Or.inr ⟨a, ha.active, ha.masked, ha.saved, ha.line_ne, ha.commands, ?_⟩
    show Quiet ((s.pics.setIrr r r').writeAll (outs a.todo))
    rw [writeAll_eoi_setIrr ha.commands]
    exact ha.settles

theorem Inv.data (h : Inv b b' s) (d : σ) : Inv b b' { s with data := d } := by
  refine ⟨h.ready, h.stray, ?_⟩
  rcases h.phase with hidle | ⟨a, ha⟩
  · exact Or.inl ⟨hidle.active, hidle.enabled, hidle.quiet⟩
  · exact Or.inr ⟨a, ha.active, ha.masked, ha.saved, ha.line_ne, ha.commands, ha.settles⟩

theorem Inv.idle (h : Inv b b' s) (hif : s.enabled = true) : Idle s := by
  rcases h.phase with hidle | ⟨a, ha⟩
  · exact hidle
  · rw [ha.masked] at hif
    cases hif

theorem Inv.idle_of_active (h : Inv b b' s) (hs : s.active = []) : Idle s :=
  h.phase.resolve_right fun ⟨a, ha⟩ => by
    rw [ha.active] at hs
    cases hs

theorem Inv.serving (h : Inv b b' s) {a : Activation α} {rest : List (Activation α)}
    (hs : s.active = a :: rest) : rest = [] ∧ Serving s a := by
  rcases h.phase with hidle | ⟨a', ha⟩
  · rw [hidle.active] at hs
    cases hs
  · rw [ha.active] at hs
    obtain ⟨rfl, rfl⟩ := List.cons.inj hs
    exact ⟨rfl, ha⟩

theorem Inv.exec (h : Inv b b' s) {a : Activation α} {x : Action α} {todo : List (Action α)}
    (ha : Serving s a) (htodo : a.todo = x :: todo) :
    Inv b b' (({ s with active := [{ a with todo }] } : Machine σ α).perform P x) := by
  have hcommands := ha.commands
  have hsettles := ha.settles
  rw [htodo] at hcommands hsettles
  cases x with
  | out port v =>
      have hw : IsEoi (port, v) := hcommands _ List.mem_cons_self
      exact ⟨h.ready.outb_eoi hw, h.stray, Or.inr ⟨_, rfl, ha.masked, ha.saved, ha.line_ne,
        fun w hw => hcommands w (List.mem_cons_of_mem _ hw), hsettles⟩⟩
  | effect a' =>
      exact ⟨h.ready, h.stray, Or.inr ⟨_, rfl, ha.masked, ha.saved, ha.line_ne, hcommands,
        hsettles⟩⟩

/-- **One step** keeps the invariant. -/
theorem Step.inv (hP : Serves P b b') (h : Step P e s t) (hi : Inv b b' s) : Inv b b' t := by
  cases h with
  | program hidle h => exact hi.data _
  | outside h => exact hi.data _
  | request l h =>
      obtain ⟨r, r', hr⟩ := s.pics.request_setIrr l
      rw [hr]
      exact hi.setIrr r r'
  | withdraw l =>
      obtain ⟨r, r', hr⟩ := s.pics.withdraw_setIrr l
      rw [hr]
      exact hi.setIrr r r'
  | @deliver _ v h hif hv hh =>
      have hidle := hi.idle hif
      have ha := inta_answers hi.ready hidle.quiet
      rw [ha.vector] at hv
      obtain rfl := Option.some.inj hv
      obtain ⟨hmasks, houts⟩ := (hP _ ha.line_ne).2 h hh
      refine ⟨ha.ready, hi.stray, Or.inr ⟨⟨s.pics.inta.line, s.enabled, h.code⟩, ?_⟩⟩
      refine ⟨?_, ?_, hif, ha.line_ne, ?_, ?_⟩
      · rw [hidle.active]
      · simp [hmasks]
      · rw [houts]
        exact eois_isEoi _
      · rw [houts]
        exact ha.owed
  | stray hif hv =>
      have ha := inta_answers hi.ready (hi.idle hif).quiet
      obtain ⟨h, hh⟩ := (hP _ ha.line_ne).1
      exact absurd hh (hv _ h ha.vector)
  | exec hs htodo =>
      obtain ⟨rfl, ha⟩ := hi.serving hs
      exact hi.exec ha htodo
  | ret hs htodo =>
      obtain ⟨rfl, ha⟩ := hi.serving hs
      have hquiet := ha.settles
      rw [htodo] at hquiet
      exact ⟨hi.ready, hi.stray, Or.inl ⟨rfl, ha.saved, hquiet⟩⟩

/-- **Every run** keeps the invariant. -/
theorem Trace.inv (hP : Serves P b b') (h : Trace P s es t) (hi : Inv b b' s) : Inv b b' t := by
  induction h with
  | nil => exact hi
  | cons hstep _ ih => exact ih (hstep.inv hP hi)

/-! ### Requests -/

theorem requested_request (p : Pair) (l k : Line) :
    Requested (p.request k) l ↔ l = k ∨ Requested p l := by
  obtain ⟨w, i⟩ := l
  obtain ⟨x, j⟩ := k
  cases w <;> cases x <;> simp [Requested, Pair.request, Pair.modify, Pair.chip]

theorem requested_withdraw (p : Pair) (l k : Line) :
    Requested (p.withdraw k) l ↔ l ≠ k ∧ Requested p l := by
  obtain ⟨w, i⟩ := l
  obtain ⟨x, j⟩ := k
  cases w <;> cases x <;> simp [Requested, Pair.withdraw, Pair.modify, Pair.chip]

/-- A handler leaves the requests alone. -/
theorem Step.exec_requested (h : Step P .exec s t) (hi : Inv b b' s) (l : Line) :
    Requested t.pics l ↔ Requested s.pics l := by
  cases h with
  | @exec _ a x todo rest hs htodo =>
      obtain ⟨rfl, ha⟩ := hi.serving hs
      have hcommands := ha.commands
      rw [htodo] at hcommands
      cases x with
      | out port v =>
          have hirr := outb_eoi_irr (hcommands _ List.mem_cons_self) s.pics l.1
          exact iff_of_eq (congrArg (l.2 ∈ ·) hirr)
      | effect a' => exact Iff.rfl

/-- The requests of a line change only when they come, go or are answered. -/
theorem Step.requested (h : Step P e s t) (hi : Inv b b' s) {l : Line} (hl : l ≠ link) :
    Requested t.pics l ↔ e = .request l ∨
      Requested s.pics l ∧ e ≠ .withdraw l ∧ e ≠ .deliver l true := by
  cases h with
  | program => simp
  | outside => simp
  | request k h =>
      rw [requested_request]
      simp [eq_comm]
  | withdraw k =>
      rw [requested_withdraw]
      simp [eq_comm, and_comm]
  | deliver hif hv hh =>
      have ha := inta_answers hi.ready (hi.idle hif).quiet
      by_cases htaken : s.pics.inta.real = true ∧ l = s.pics.inta.line
      · obtain ⟨hreal, rfl⟩ := htaken
        simp [hreal, (ha.taken hreal).2]
      · have hne : ¬ (s.pics.inta.line = l ∧ s.pics.inta.real = true) :=
          fun h => htaken ⟨h.2, h.1.symm⟩
        have hkept := ha.kept l hl (fun hreal heq => htaken ⟨hreal, heq⟩)
        simpa [hne] using hkept
  | stray => simp
  | exec hs htodo =>
      rw [(Step.exec hs htodo).exec_requested hi]
      simp
  | ret => simp

/-- The line that is the first to be served. -/
def First (p : Pair) (l : Line) : Prop := Requested p l ∧
  ∀ k ≠ link, Requested p k → (k.1 = .slave → Requested p link) → rank l ≤ rank k

/-- What is answered was requested, and nothing before it. -/
theorem Step.deliver_first {l : Line} (h : Step P (.deliver l true) s t) (hi : Inv b b' s) :
    First s.pics l := by
  generalize he : Event.deliver l true = e at h
  cases h with
  | deliver hif hv hh =>
      obtain ⟨rfl, hreal⟩ := Event.deliver.inj he
      have ha := inta_answers hi.ready (hi.idle hif).quiet
      exact ⟨(ha.taken hreal.symm).1, ha.first hreal.symm⟩
  | _ => cases he

theorem Step.count_le (h : Step P e s t) (hi : Inv b b' s) {l : Line} (hl : l ≠ link) :
    (if e = .deliver l true then 1 else 0) + (if Requested t.pics l then 1 else 0) ≤
      (if e = .request l then 1 else 0) + (if Requested s.pics l then 1 else 0) := by
  have hreq := h.requested hi hl
  by_cases hd : e = .deliver l true
  · subst hd
    simp [hreq, (h.deliver_first hi).1]
  · by_cases hr : e = .request l
    · simp [hreq, hr]
    · have hkept : Requested t.pics l → Requested s.pics l := fun ht =>
        ((hreq.mp ht).resolve_left hr).1
      by_cases ht : Requested t.pics l
      · simp [hd, hr, ht, hkept ht]
      · simp [hd, hr, ht]

/-- **No request is answered twice.**  A request that finds its line requested already is one
with the other. -/
theorem Trace.count_le (hP : Serves P b b') (h : Trace P s es t) (hi : Inv b b' s) {l : Line}
    (hl : l ≠ link) : es.count (.deliver l true) + (if Requested t.pics l then 1 else 0) ≤
      es.count (.request l) + (if Requested s.pics l then 1 else 0) := by
  induction h with
  | nil => simp
  | @cons s t u e es hstep _ ih =>
      have hrest := ih (hstep.inv hP hi)
      have hfirst := hstep.count_le hi hl
      simp only [List.count_cons, beq_iff_eq]
      omega

/-- **No request is lost.** -/
theorem Trace.requested (hP : Serves P b b') (h : Trace P s es t) (hi : Inv b b' s) {l : Line}
    (hl : l ≠ link) (hreq : Requested s.pics l) (hw : .withdraw l ∉ es)
    (hd : .deliver l true ∉ es) : Requested t.pics l := by
  induction h with
  | nil => exact hreq
  | cons hstep _ ih =>
      have hnext := (hstep.requested hi hl).mpr (Or.inr ⟨hreq, fun he => hw (by simp [he]),
        fun he => hd (by simp [he])⟩)
      exact ih (hstep.inv hP hi) hnext (fun h => hw (List.mem_cons_of_mem _ h))
        (fun h => hd (List.mem_cons_of_mem _ h))

/-! ### Every line is served -/

/-- What needs nobody but the processor and the controllers. -/
def Event.Inner : Event → Prop
  | .deliver _ _ | .exec | .ret => True
  | .request l => l = link
  | _ => False

theorem finish (hP : Serves P b b') (hi : Inv b b' s) : ∃ es t, Trace P s es t ∧ Inv b b' t ∧
    Idle t ∧ (∀ e ∈ es, e.Inner) ∧ ∀ l, Requested t.pics l ↔ Requested s.pics l := by
  rcases hi.phase with hidle | ⟨a, ha⟩
  · exact ⟨[], s, .nil s, hi, hidle, by simp, fun _ => Iff.rfl⟩
  · obtain ⟨todo, htodo⟩ : ∃ todo, a.todo = todo := ⟨_, rfl⟩
    induction todo generalizing s a with
    | nil =>
        have hstep : Step P .ret s _ := .ret ha.active htodo
        have hi' := hstep.inv hP hi
        exact ⟨_, _, .single hstep, hi', hi'.idle ha.saved, by simp [Event.Inner],
          fun _ => Iff.rfl⟩
    | cons x todo ih =>
        have hstep : Step P .exec s _ := .exec ha.active htodo
        have hi' := hstep.inv hP hi
        have hreq := hstep.exec_requested hi
        have hactive : (Machine.perform P { s with active := [{ a with todo }] } x).active =
            [{ a with todo }] := by
          cases x <;> rfl
        obtain ⟨es, t, ht, hit, hidle, hinner, hkept⟩ :=
          ih hi' _ (hi'.serving hactive).2 rfl
        refine ⟨.exec :: es, t, .cons hstep ht, hit, hidle, ?_, fun l => (hkept l).trans (hreq l)⟩
        simpa [Event.Inner] using hinner

/-- The lines of devices that have a request. -/
def waiting (p : Pair) : Finset Line := Finset.univ.filter (fun l => l ≠ link ∧ Requested p l)

theorem mem_waiting {p : Pair} {l : Line} : l ∈ waiting p ↔ l ≠ link ∧ Requested p l := by
  simp [waiting]

/-- Two for a line that waits, and one for the request of the second controller. -/
def measure (p : Pair) : ℕ := 2 * (waiting p).card + (if Requested p link then 1 else 0)

/-- An answer that was requested costs two, one that was not costs the request of the second
controller. -/
theorem measure_inta {p : Pair} (hr : Ready p b b') (hq : Quiet p) :
    (p.inta.real = true → measure p.inta.pics + 2 ≤ measure p) ∧
      (p.inta.real = false → p.inta.line.1 = .slave → measure p.inta.pics + 1 ≤ measure p) := by
  have ha := inta_answers hr hq
  have hlink : (if Requested p.inta.pics link then 1 else 0) ≤
      (if Requested p link then 1 else 0) := by
    by_cases h : Requested p.inta.pics link
    · rw [if_pos h, if_pos (ha.link_kept h)]
    · rw [if_neg h]
      exact Nat.zero_le _
  unfold measure
  constructor
  · intro hreal
    have hlt : waiting p.inta.pics ⊂ waiting p := by
      refine ⟨?_, ?_⟩
      · intro l hl
        obtain ⟨hne, hreq⟩ := mem_waiting.mp hl
        have hother : l ≠ p.inta.line := by
          rintro rfl
          exact (ha.taken hreal).2 hreq
        exact mem_waiting.mpr ⟨hne, (ha.kept l hne fun _ => hother).mp hreq⟩
      · intro hsub
        have hmem := hsub (mem_waiting.mpr ⟨ha.line_ne, (ha.taken hreal).1⟩)
        exact (ha.taken hreal).2 (mem_waiting.mp hmem).2
    have hcard := Finset.card_lt_card hlt
    omega
  · intro hreal hslave
    have hsame : waiting p.inta.pics = waiting p := by
      ext l
      rw [mem_waiting, mem_waiting]
      exact and_congr_right fun hne => ha.kept l hne fun h => by rw [hreal] at h; cases h
    rw [hsame, if_pos (ha.linked hslave).1, if_neg (ha.linked hslave).2]

theorem deliver_one (hP : Serves P b b') (hi : Inv b b' s) (hidle : Idle s) : ∃ es t,
    Trace P s es t ∧ Inv b b' t ∧ Idle t ∧ (∀ e ∈ es, e.Inner) ∧
      .deliver s.pics.inta.line s.pics.inta.real ∈ es ∧
      ∀ l, Requested t.pics l ↔ Requested s.pics.inta.pics l := by
  have ha := inta_answers hi.ready hidle.quiet
  obtain ⟨h, hh⟩ := (hP _ ha.line_ne).1
  have hstep := Step.deliver hidle.enabled ha.vector hh
  obtain ⟨es, t, ht, hit, hidle', hinner, hkept⟩ := finish hP (hstep.inv hP hi)
  refine ⟨_ :: es, t, .cons hstep ht, hit, hidle', ?_, List.mem_cons_self, hkept⟩
  simpa [Event.Inner] using hinner

theorem measure_congr {p q : Pair} (h : ∀ l, Requested p l ↔ Requested q l) :
    measure p = measure q := by
  unfold measure waiting
  simp only [h]

/-- A line that waits is served by a delivery, or waits on. -/
theorem deliver_or_wait (hP : Serves P b b') (hi : Inv b b' s) (hidle : Idle s) {l : Line}
    (hl : l ≠ link) (hreq : Requested s.pics l) : ∃ es t, Trace P s es t ∧ Inv b b' t ∧
      Idle t ∧ (∀ e ∈ es, e.Inner) ∧ (.deliver l true ∈ es ∨ Requested t.pics l ∧
        (s.pics.inta.real = true → measure t.pics + 2 ≤ measure s.pics) ∧
        (s.pics.inta.real = false → s.pics.inta.line.1 = .slave →
          measure t.pics + 1 ≤ measure s.pics)) := by
  obtain ⟨es, t, ht, hit, hidle', hinner, hmem, hsame⟩ := deliver_one hP hi hidle
  refine ⟨es, t, ht, hit, hidle', hinner, ?_⟩
  by_cases h : s.pics.inta.real = true ∧ l = s.pics.inta.line
  · obtain ⟨hreal, rfl⟩ := h
    rw [hreal] at hmem
    exact Or.inl hmem
  · right
    have ha := inta_answers hi.ready hidle.quiet
    rw [measure_congr hsame, hsame, ha.kept l hl fun hreal heq => h ⟨hreal, heq⟩]
    exact ⟨hreq, measure_inta hi.ready hidle.quiet⟩

theorem ask_link (hi : Inv b b' s) {i : Fin 8} (hreq : Requested s.pics (.slave, i))
    (hquiet : Quiet s.pics) :
    Step P (.request link) s { s with pics := s.pics.request link } := by
  refine .request link fun _ => ⟨i, ?_⟩
  unfold Chip.pending
  rw [hi.ready.slave.imr, hquiet.2]
  simp only [Finset.notMem_empty, not_false_eq_true, false_implies, implies_true, and_true,
    Finset.filter_true]
  exact hreq

theorem measure_request {p : Pair} (h : ¬ Requested p link) :
    measure (p.request link) = measure p + 1 := by
  have hsame : waiting (p.request link) = waiting p := by
    ext l
    rw [mem_waiting, mem_waiting, requested_request]
    exact and_congr_right fun hne => or_iff_right hne
  have hlink : Requested (p.request link) link := (requested_request p link link).mpr (Or.inl rfl)
  unfold measure
  rw [hsame, if_pos hlink, if_neg h]

/-- A round: the second controller asks if it has not yet, and one line is served. -/
theorem serve_round (hP : Serves P b b') (hi : Inv b b' s) (hidle : Idle s) {l : Line}
    (hl : l ≠ link) (hreq : Requested s.pics l) : ∃ es t, Trace P s es t ∧ Inv b b' t ∧
      (∀ e ∈ es, e.Inner) ∧
      (.deliver l true ∈ es ∨ Requested t.pics l ∧ measure t.pics < measure s.pics) := by
  obtain ⟨w, i⟩ := l
  by_cases hask : w = .slave ∧ ¬ Requested s.pics link
  · obtain ⟨rfl, hnot⟩ := hask
    have hstep : Step P (.request link) s _ := ask_link hi hreq hidle.quiet
    have hi' := hstep.inv hP hi
    have hreq' : Requested (s.pics.request link) (.slave, i) :=
      (requested_request _ _ _).mpr (Or.inr hreq)
    have hlink : Requested (s.pics.request link) link :=
      (requested_request _ _ _).mpr (Or.inl rfl)
    have hidle' := hi'.idle hidle.enabled
    obtain ⟨es, t, ht, hit, -, hinner, hout⟩ := deliver_or_wait hP hi' hidle' hl hreq'
    refine ⟨_ :: es, t, .cons hstep ht, hit, by simpa [Event.Inner] using hinner, ?_⟩
    rcases hout with hdone | ⟨hwait, hreal, -⟩
    · exact Or.inl (List.mem_cons_of_mem _ hdone)
    · right
      have hmeasure := measure_request hnot
      simp only at hreal
      cases hr : (s.pics.request link).inta.real with
      | true =>
          have hle := hreal hr
          exact ⟨hwait, by omega⟩
      | false =>
          have hfalse := ((inta_answers hi'.ready hidle'.quiet).spurious hr).2
          cases hw : (s.pics.request link).inta.line.1 with
          | master =>
              rw [hw] at hfalse
              exact absurd hlink (hfalse 2)
          | slave =>
              rw [hw] at hfalse
              exact absurd hreq' (hfalse i)
  · obtain ⟨es, t, ht, hit, -, hinner, hout⟩ := deliver_or_wait hP hi hidle hl hreq
    refine ⟨es, t, ht, hit, hinner, ?_⟩
    rcases hout with hdone | ⟨hwait, hreal, hspurious⟩
    · exact Or.inl hdone
    · refine Or.inr ⟨hwait, ?_⟩
      cases hr : s.pics.inta.real with
      | true =>
          have hle := hreal hr
          omega
      | false =>
          have hfalse := ((inta_answers hi.ready hidle.quiet).spurious hr).2
          cases hw : s.pics.inta.line.1 with
          | slave => exact hspurious hr hw
          | master =>
              rw [hw] at hfalse
              cases w with
              | master => exact absurd hreq (hfalse i)
              | slave => exact absurd ⟨rfl, hfalse 2⟩ hask

/-- **Every waiting line is served** by the processor and the controllers alone, whatever other
lines wait. -/
theorem served (hP : Serves P b b') (hi : Inv b b' s) {l : Line} (hl : l ≠ link)
    (hreq : Requested s.pics l) :
    ∃ es t, Trace P s es t ∧ (∀ e ∈ es, e.Inner) ∧ .deliver l true ∈ es := by
  obtain ⟨n, hn⟩ : ∃ n, measure s.pics = n := ⟨_, rfl⟩
  induction n using Nat.strong_induction_on generalizing s with
  | _ n ih =>
      obtain ⟨es₀, s₀, h₀, hi₀, hidle₀, hinner₀, hkept₀⟩ := finish hP hi
      obtain ⟨es, t, ht, hit, hinner, hout⟩ :=
        serve_round hP hi₀ hidle₀ hl ((hkept₀ l).mpr hreq)
      rcases hout with hdone | ⟨hwait, hless⟩
      · refine ⟨es₀ ++ es, t, h₀.trans ht, ?_, List.mem_append_right _ hdone⟩
        exact List.forall_mem_append.mpr ⟨hinner₀, hinner⟩
      · rw [measure_congr hkept₀, hn] at hless
        obtain ⟨es', t', ht', hinner', hdone⟩ := ih _ hless hit hwait rfl
        refine ⟨es₀ ++ es ++ es', t', (h₀.trans ht).trans ht', ?_, List.mem_append_right _ hdone⟩
        exact List.forall_mem_append.mpr
          ⟨List.forall_mem_append.mpr ⟨hinner₀, hinner⟩, hinner'⟩

/-! ### False answers -/

/-- The second controller has asked only with a request of its own. -/
def Linked (p : Pair) : Prop := Requested p link → ∃ i, Requested p (.slave, i)

section linked

variable {p : Pair}

/-- A false answer of the second controller needs a request that was withdrawn. -/
theorem Linked.real (hl : Linked p) (hr : Ready p b b') (hq : Quiet p)
    (hslave : p.inta.line.1 = .slave) : p.inta.real = true := by
  have ha := inta_answers hr hq
  obtain ⟨i, hi⟩ := hl (ha.linked hslave).1
  by_contra hreal
  have hfalse := (ha.spurious (Bool.eq_false_iff.mpr hreal)).2 i
  rw [hslave] at hfalse
  exact hfalse hi

theorem Linked.inta (hl : Linked p) (hr : Ready p b b') (hq : Quiet p) : Linked p.inta.pics := by
  have ha := inta_answers hr hq
  intro hlink
  obtain ⟨i, hi⟩ := hl (ha.link_kept hlink)
  refine ⟨i, (ha.kept (.slave, i) (by simp [link]) ?_).mpr hi⟩
  rintro - heq
  exact (ha.linked (by rw [← heq])).2 hlink

theorem Linked.request (hl : Linked p) {l : Line} (h : l = link → p.slave.pending.Nonempty) :
    Linked (p.request l) := by
  intro hlink
  have hsome : ∃ i, Requested p (.slave, i) := by
    rcases (requested_request p link l).mp hlink with heq | hreq
    · obtain ⟨i, hi⟩ := h heq.symm
      exact ⟨i, (Finset.mem_filter.mp hi).1⟩
    · exact hl hreq
  obtain ⟨i, hi⟩ := hsome
  exact ⟨i, (requested_request p (.slave, i) l).mpr (Or.inr hi)⟩

theorem Linked.withdraw (hl : Linked p) {l : Line} (h : l.1 = .master) :
    Linked (p.withdraw l) := by
  intro hlink
  obtain ⟨i, hi⟩ := hl ((requested_withdraw p link l).mp hlink).2
  refine ⟨i, (requested_withdraw p (.slave, i) l).mpr ⟨?_, hi⟩⟩
  rintro rfl
  cases h

theorem Step.linked (h : Step P e s t) (hi : Inv b b' s)
    (hkeep : ∀ l, e = .withdraw l → l.1 = .master) (hl : Linked s.pics) : Linked t.pics := by
  cases h with
  | program => exact hl
  | outside => exact hl
  | request l h => exact hl.request h
  | withdraw l => exact hl.withdraw (hkeep l rfl)
  | deliver hif hv hh => exact hl.inta hi.ready (hi.idle hif).quiet
  | stray => exact hl
  | exec hs htodo =>
      have hreq := (Step.exec (P := P) hs htodo).exec_requested hi
      intro hlink
      obtain ⟨i, hi'⟩ := hl ((hreq link).mp hlink)
      exact ⟨i, (hreq (.slave, i)).mpr hi'⟩
  | ret => exact hl

theorem Trace.linked (hP : Serves P b b') (h : Trace P s es t) (hi : Inv b b' s)
    (hkeep : ∀ l, .withdraw l ∈ es → l.1 = .master) (hl : Linked s.pics) : Linked t.pics := by
  induction h with
  | nil => exact hl
  | cons hstep _ ih =>
      exact ih (hstep.inv hP hi) (fun l hmem => hkeep l (List.mem_cons_of_mem _ hmem))
        (hstep.linked hi (fun l he => hkeep l (he ▸ List.mem_cons_self)) hl)

/-- With one line of the second controller requested, that line is answered. -/
theorem inta_requested (hr : Ready p b b') (hq : Quiet p) {i : Fin 8}
    (hlink : Requested p link) (hreq : Requested p (.slave, i))
    (honly : ∀ l ≠ link, Requested p l → l = (.slave, i)) :
    p.inta.line = (.slave, i) ∧ p.inta.real = true := by
  have ha := inta_answers hr hq
  have hreal : p.inta.real = true := by
    by_contra hne
    obtain ⟨-, hnone⟩ := ha.spurious (Bool.eq_false_iff.mpr hne)
    cases hw : p.inta.line.1 with
    | master => exact hnone 2 (hw ▸ hlink)
    | slave => exact hnone i (hw ▸ hreq)
  exact ⟨honly _ ha.line_ne (ha.taken hreal).1, hreal⟩

/-- With nothing but the request between the controllers, the second one answers falsely. -/
theorem inta_false (hr : Ready p b b') (hq : Quiet p) (hlink : Requested p link)
    (honly : ∀ l ≠ link, ¬ Requested p l) :
    p.inta.line = (.slave, 7) ∧ p.inta.real = false := by
  have ha := inta_answers hr hq
  have hreal : p.inta.real = false := by
    by_contra hne
    exact honly _ ha.line_ne (ha.taken (Bool.not_eq_false _ ▸ hne)).1
  obtain ⟨h7, hnone⟩ := ha.spurious hreal
  refine ⟨?_, hreal⟩
  cases hw : p.inta.line.1 with
  | master =>
      rw [hw] at hnone
      exact absurd hlink (hnone 2)
  | slave => exact Prod.ext hw h7

/-- A line of the second controller that takes its request back leads to a false answer. -/
theorem withdrawn_false (hP : Serves P b b') (hi : Inv b b' s) (hidle : Idle s)
    (hnone : ∀ l, ¬ Requested s.pics l) (i : Fin 8) : ∃ p,
      Trace P s [.request (.slave, i), .request link, .withdraw (.slave, i)] { s with pics := p } ∧
        p.inta.line = (.slave, 7) ∧ p.inta.real = false := by
  have h1 := Step.request (P := P) (s := s) (.slave, i) (by simp [link])
  have hi1 := h1.inv hP hi
  have hasked : Requested (s.pics.request (.slave, i)) (.slave, i) :=
    (requested_request _ _ _).mpr (Or.inl rfl)
  have h2 := ask_link (P := P) hi1 hasked (hi1.idle hidle.enabled).quiet
  have hi2 := h2.inv hP hi1
  have h3 := Step.withdraw (P := P)
    (s := { s with pics := (s.pics.request (.slave, i)).request link }) (.slave, i)
  have hi3 := h3.inv hP hi2
  have hlink : Requested (((s.pics.request (.slave, i)).request link).withdraw (.slave, i))
      link := by
    rw [requested_withdraw, requested_request]
    exact ⟨by simp [link], Or.inl rfl⟩
  have honly : ∀ l ≠ link,
      ¬ Requested (((s.pics.request (.slave, i)).request link).withdraw (.slave, i)) l := by
    intro l hl hreq
    rw [requested_withdraw, requested_request, requested_request] at hreq
    obtain ⟨hne, heq | heq | hold⟩ := hreq
    · exact hl heq
    · exact hne heq
    · exact hnone l hold
  exact ⟨_, .cons h1 (.cons h2 (.single h3)),
    inta_false hi3.ready (hi3.idle hidle.enabled).quiet hlink honly⟩

end linked

/-- What a run from `s` to `t` with the events `es` comes to. -/
structure Reliable (P : Platform σ α) (s : Machine σ α) (es : List Event) (t : Machine σ α) :
    Prop where
  /-- No interrupt goes astray. -/
  stray : t.stray = false
  /-- Handlers do not nest, and nothing is in service between them. -/
  phase : t.active = [] ∧ t.enabled = true ∧ Quiet t.pics ∨
    t.active.length = 1 ∧ t.enabled = false
  /-- A line is not answered more often than it was requested. -/
  once : ∀ l ≠ link, es.count (.deliver l true) ≤
    es.count (.request l) + (if Requested s.pics l then 1 else 0)
  /-- The line that is answered comes first. -/
  first : ∀ l es₁ es₂, es = es₁ ++ .deliver l true :: es₂ →
    ∃ u, Trace P s es₁ u ∧ First u.pics l
  /-- A request waits until it is answered or withdrawn. -/
  waits : ∀ l ≠ link, ∀ es₁ es₂, es = es₁ ++ .request l :: es₂ → .withdraw l ∉ es₂ →
    .deliver l true ∉ es₂ → Requested t.pics l
  /-- And it can be answered with nothing but the processor and the controllers going on. -/
  served : ∀ l ≠ link, Requested t.pics l →
    ∃ fs u, Trace P t fs u ∧ (∀ e ∈ fs, e.Inner) ∧ .deliver l true ∈ fs

/-- **Every run is reliable.** -/
theorem Trace.reliable (hP : Serves P b b') (h : Trace P s es t) (hi : Inv b b' s) :
    Reliable P s es t := by
  have hit := h.inv hP hi
  refine ⟨hit.stray, ?_, ?_, ?_, ?_, fun l hl hreq => Irq.served hP hit hl hreq⟩
  · rcases hit.phase with hidle | ⟨a, ha⟩
    · exact Or.inl ⟨hidle.active, hidle.enabled, hidle.quiet⟩
    · exact Or.inr ⟨by rw [ha.active]; rfl, ha.masked⟩
  · intro l hl
    have hle := h.count_le hP hi hl
    omega
  · rintro l es₁ es₂ rfl
    obtain ⟨u, hu, hrest⟩ := Trace.append_iff.mp h
    cases hrest with
    | cons hstep _ => exact ⟨u, hu, hstep.deliver_first (hu.inv hP hi)⟩
  · rintro l hl es₁ es₂ rfl hw hd
    obtain ⟨u, hu, hrest⟩ := Trace.append_iff.mp h
    cases hrest with
    | cons hstep hrest =>
        have hiu := hu.inv hP hi
        have hreq := (hstep.requested hiu hl).mpr (Or.inl rfl)
        exact hrest.requested hP (hstep.inv hP hiu) hl hreq hw hd

end Irq

end BareMetal
