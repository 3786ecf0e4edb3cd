import Ziemniak.BareMetal.Cpu
import Ziemniak.BareMetal.Descriptor
import Ziemniak.BareMetal.Paging

/-! # Code behind page tables

Straight-line code of an x86 processor that turns paging on or runs behind it.  Every access goes
through a bus, which says at which byte of the memory an address lies: `mmu` walks the tables once
paging is on, `inside W` is a flat memory with the addresses of `W` and no others.  An access of
several bytes is located byte by byte (`places`) before anything is read or stored.

A window shows a flat memory through tables: its addresses are mapped, no two to one place, and
none of its places belongs to the tables (`Window`).  Code that runs on the flat memory then runs
behind the tables, with the same registers and the same bytes (`Behind.run`). -/

namespace BareMetal

/-! ### Bytes at places -/

/-- The number in the bytes at the places `ps`, the lowest first. -/
def gather (m : Mem) : List ℕ → ℕ
  | [] => 0
  | a :: ps => (m a).toNat + 256 * gather m ps

/-- Store the low bytes of `v` at the places `ps`. -/
def scatter (m : Mem) (v : ℕ) : List ℕ → Mem
  | [] => m
  | a :: ps => scatter (write8 m a (BitVec.ofNat 8 v)) (v / 256) ps

theorem gather_range' (m : Mem) (n a : ℕ) : gather m (List.range' a n) = readLE n m a := by
  induction n generalizing a with
  | zero => rfl
  | succ n ih => rw [List.range'_succ, gather, ih, readLE]

theorem scatter_range' (m : Mem) (n a v : ℕ) : scatter m v (List.range' a n) = writeLE n m a v := by
  induction n generalizing a v m with
  | zero =>
      funext x
      exact (writeLE_of_not_mem (by omega)).symm
  | succ n ih =>
      rw [List.range'_succ, scatter, ih]
      funext x
      unfold writeLE write8
      by_cases hx : x = a
      · subst hx
        simp
      · rw [if_neg hx]
        by_cases hin : a + 1 ≤ x ∧ x < a + 1 + n
        · have hd : x - a = x - (a + 1) + 1 := by omega
          rw [if_pos hin, if_pos (by omega), hd, Nat.pow_succ, Nat.mul_comm, Nat.div_div_eq_div_mul]
        · rw [if_neg hin, if_neg (by omega)]

/-- The places of the `n` bytes from `v` on. -/
def places (tr : BitVec 64 → Option ℕ) : ℕ → BitVec 64 → Option (List ℕ)
  | 0, _ => some []
  | n + 1, v => do
      let a ← tr v
      let ps ← places tr n (v + 1)
      return a :: ps

theorem places_range' {tr : BitVec 64 → Option ℕ} {n a : ℕ} {v : BitVec 64}
    (h : ∀ i < n, tr (v + BitVec.ofNat 64 i) = some (a + i)) :
    places tr n v = some (List.range' a n) := by
  induction n generalizing a v with
  | zero => rfl
  | succ n ih =>
      have h0 : tr v = some a := by simpa using h 0 (Nat.succ_pos n)
      have hrest : places tr n (v + 1) = some (List.range' (a + 1) n) := by
        apply ih
        intro i hi
        have e : v + 1 + BitVec.ofNat 64 i = v + BitVec.ofNat 64 (i + 1) := by
          rw [BitVec.add_assoc, BitVec.add_comm 1, BitVec.ofNat_add]
          rfl
        rw [e, h (i + 1) (by omega), Nat.add_assoc, Nat.add_comm 1 i]
      rw [places, h0, hrest, List.range'_succ]
      rfl

/-! ### The processor -/

inductive Seg
  | cs | ds | es | fs | gs | ss
deriving DecidableEq, Repr

/-- The processor with its memory; `direction` and `enabled` are `DF` and `IF`. -/
structure Machine where
  gpr : Gpr → BitVec 64
  cr : Cr → BitVec 64
  efer : BitVec 64
  seg : Seg → BitVec 16
  gdtr : TableReg
  direction : Bool
  enabled : Bool
  mem : Mem

/-- At which byte of the memory an address lies, `none` for a fault. -/
abbrev Bus := (Cr → BitVec 64) → Mem → BitVec 64 → Option ℕ

/-- Bit 31 of `cr0`. -/
def paging (cr : Cr → BitVec 64) : Bool := (cr .cr0).getLsbD 31

/-- The tables, when paging is on. -/
def mmu : Bus := fun cr m v => if paging cr then Paging.walk m (cr .cr3) v else some v.toNat

/-- A flat memory with the addresses of `W`. -/
def inside (W : BitVec 64 → Prop) [DecidablePred W] : Bus := fun _ _ v =>
  if W v then some v.toNat else none

namespace Machine

def set (s : Machine) (r : Gpr) (v : BitVec 64) : Machine :=
  { s with gpr := Function.update s.gpr r v }

variable (bus : Bus)

def load (n : ℕ) (v : BitVec 64) (s : Machine) : Option ℕ :=
  (places (bus s.cr s.mem) n v).map (gather s.mem)

def store (n : ℕ) (v : BitVec 64) (x : ℕ) (s : Machine) : Option Machine :=
  (places (bus s.cr s.mem) n v).map (fun ps => { s with mem := scatter s.mem x ps })

def push (x : BitVec 64) (s : Machine) : Option Machine :=
  (s.set .rsp (s.gpr .rsp - 8)).store bus 8 (s.gpr .rsp - 8) x.toNat

end Machine

/-! ### Instructions -/

/-- Instructions that touch no memory. -/
inductive RegOp
  | movImm (r : Gpr) (v : BitVec 64)
  | movImm16 (r : Gpr) (v : BitVec 16)
  | mov (r q : Gpr)
  | xor (r q : Gpr)
  | sub (r : Gpr) (v : BitVec 64)
  | shr (r : Gpr) (n : ℕ)
  | or (r : Gpr) (v : BitVec 64)
  | or32 (r : Gpr) (v : BitVec 32)
  | and32 (r : Gpr) (v : BitVec 32)
  | fromCr (r : Gpr) (k : Cr)
  | cld
  | cli
deriving DecidableEq, Repr

/-- What a 32-bit result leaves in a register is zero-extended. -/
def RegOp.exec (s : Machine) : RegOp → Machine
  | movImm r v => s.set r v
  | movImm16 r v => s.set r (s.gpr r &&& ~~~0xFFFF ||| v.setWidth 64)
  | mov r q => s.set r (s.gpr q)
  | xor r q => s.set r (s.gpr r ^^^ s.gpr q)
  | sub r v => s.set r (s.gpr r - v)
  | shr r n => s.set r (s.gpr r >>> n)
  | or r v => s.set r (s.gpr r ||| v)
  | or32 r v => s.set r (((s.gpr r).setWidth 32 ||| v).setWidth 64)
  | and32 r v => s.set r (((s.gpr r).setWidth 32 &&& v).setWidth 64)
  | fromCr r k => s.set r (s.cr k)
  | cld => { s with direction := false }
  | cli => { s with enabled := false }

inductive Op
  | reg (op : RegOp)
  | load (n : ℕ) (r q : Gpr) (off : BitVec 32)
  | store (n : ℕ) (a : BitVec 64) (r : Gpr)
  | push (r : Gpr)
  | pop (r : Gpr)
  | call (ret : BitVec 64)
  | lgdt (n : ℕ) (a : BitVec 64)
  | movSeg (g : Seg) (r : Gpr)
  | jmpFar (sel : BitVec 16)
  | toCr (k : Cr) (r : Gpr)
  | rdmsr
  | wrmsr
  | repStosq
deriving DecidableEq, Repr

/-- A present, writable data segment. -/
def isData (d : BitVec 64) : Bool :=
  d.getLsbD 47 && d.getLsbD 44 && !d.getLsbD 43 && d.getLsbD 41

/-- A present code segment of 64-bit code. -/
def isCode64 (d : BitVec 64) : Bool :=
  d.getLsbD 47 && d.getLsbD 44 && d.getLsbD 43 && d.getLsbD 53 && !d.getLsbD 54

/-- Paging goes with `PAE` and `LME`; the other kinds of paging are not modelled. -/
def admissible (cr : Cr → BitVec 64) (efer : BitVec 64) : Bool :=
  !paging cr || (cr .cr4).getLsbD 5 && efer.getLsbD 8

theorem admissible_off {cr : Cr → BitVec 64} (h : paging cr = false) (efer : BitVec 64) :
    admissible cr efer = true := by
  unfold admissible
  rw [h]
  rfl

def MSR_EFER : BitVec 32 := 0xC0000080

namespace Machine

variable (bus : Bus)

/-- The descriptor of a selector in the global table. -/
def descriptor (sel : BitVec 16) (s : Machine) : Option (BitVec 64) :=
  let o := 8 * (sel.toNat / 8)
  if sel.getLsbD 2 = false ∧ o + 7 ≤ s.gdtr.limit then
    (s.load bus 8 (BitVec.ofNat 64 (s.gdtr.base + o))).map (BitVec.ofNat 64)
  else none

def loadSeg (ok : BitVec 64 → Bool) (g : Seg) (sel : BitVec 16) (s : Machine) : Option Machine := do
  let d ← s.descriptor bus sel
  if ok d then return { s with seg := Function.update s.seg g sel } else none

/-- One round of `rep stosq`. -/
def stosq (s : Machine) : Option Machine :=
  (s.store bus 8 (s.gpr .rdi) (s.gpr .rax).toNat).map fun s =>
    (s.set .rdi (if s.direction then s.gpr .rdi - 8 else s.gpr .rdi + 8)).set .rcx
      (s.gpr .rcx - 1)

def repStosq : ℕ → Machine → Option Machine
  | 0, s => some s
  | n + 1, s => do
      let s ← s.stosq bus
      repStosq n s

end Machine

/-- `none` for a fault.  The address of `load` is a 32-bit sum. -/
def Op.exec (bus : Bus) (s : Machine) : Op → Option Machine
  | reg op => some (op.exec s)
  | load n r q off => do
      let x ← s.load bus n (((s.gpr q).setWidth 32 + off).setWidth 64)
      return s.set r (BitVec.ofNat 64 x)
  | store n a r => s.store bus n a (s.gpr r).toNat
  | push r => s.push bus (s.gpr r)
  | pop r => do
      let x ← s.load bus 8 (s.gpr .rsp)
      return (s.set .rsp (s.gpr .rsp + 8)).set r (BitVec.ofNat 64 x)
  | call ret => s.push bus ret
  | lgdt n a => do
      let limit ← s.load bus 2 a
      let base ← s.load bus n (a + 2)
      return { s with gdtr := { base, limit } }
  | movSeg g r => s.loadSeg bus isData g ((s.gpr r).setWidth 16)
  | jmpFar sel => s.loadSeg bus isCode64 .cs sel
  | toCr k r =>
      let cr := Function.update s.cr k (s.gpr r)
      if admissible cr s.efer then some { s with cr } else none
  | rdmsr =>
      if (s.gpr .rcx).setWidth 32 = MSR_EFER then
        some ((s.set .rax ((s.efer.setWidth 32).setWidth 64)).set .rdx (s.efer >>> 32))
      else none
  | wrmsr =>
      if (s.gpr .rcx).setWidth 32 = MSR_EFER ∧ paging s.cr = false then
        some { s with efer := (s.gpr .rdx).setWidth 32 ++ (s.gpr .rax).setWidth 32 }
      else none
  | repStosq => s.repStosq bus (s.gpr .rcx).toNat

/-- The code from its first instruction to its last. -/
def runOps (bus : Bus) : List Op → Machine → Option Machine
  | [], s => some s
  | op :: code, s => do
      let s ← op.exec bus s
      runOps bus code s

@[simp] theorem runOps_nil (bus : Bus) (s : Machine) : runOps bus [] s = some s := rfl

@[simp] theorem runOps_cons (bus : Bus) (op : Op) (code : List Op) (s : Machine) :
    runOps bus (op :: code) s = (op.exec bus s).bind (runOps bus code) := rfl

theorem runOps_append (bus : Bus) (p q : List Op) (s : Machine) :
    runOps bus (p ++ q) s = (runOps bus p s).bind (runOps bus q) := by
  induction p generalizing s with
  | nil => rfl
  | cons op p ih =>
      rw [List.cons_append, runOps_cons, runOps_cons]
      cases op.exec bus s with
      | none => rfl
      | some t => exact ih t

theorem movSegs_run {bus : Bus} {r : Gpr} {s : Machine} {sel : BitVec 16} {d : BitVec 64}
    (hsel : (s.gpr r).setWidth 16 = sel) (hd : s.descriptor bus sel = some d)
    (hdata : isData d = true) (gs : List Seg) :
    runOps bus (gs.map (.movSeg · r)) s = some { s with
      seg := gs.foldl (fun seg g => Function.update seg g sel) s.seg } := by
  induction gs generalizing s with
  | nil => rfl
  | cons g gs ih =>
      have hexec : (Op.movSeg g r).exec bus s =
          some { s with seg := Function.update s.seg g sel } := by
        show s.loadSeg bus isData g ((s.gpr r).setWidth 16) = _
        unfold Machine.loadSeg
        rw [hsel, hd, Option.bind_eq_bind, Option.bind_some, if_pos hdata]
        rfl
      rw [List.map_cons, runOps_cons, hexec, Option.bind_some]
      exact ih hsel hd

/-- The address space stays: no control register is written. -/
def Op.steady : Op → Bool
  | toCr _ _ | wrmsr => false
  | _ => true

/-! ### Windows -/

/-- The addresses of `W` lie at distinct places, and stores there keep the tables. -/
structure Window (W : BitVec 64 → Prop) (f : BitVec 64 → ℕ) (Keeps : Mem → Prop)
    (cr : Cr → BitVec 64) : Prop where
  mapped : ∀ m, Keeps m → ∀ v, W v → mmu cr m v = some (f v)
  inj : ∀ v w, W v → W w → f v = f w → v = w
  keeps : ∀ m v b, Keeps m → W v → Keeps (write8 m (f v) b)

/-- The memory `m'`, once `m₀`, shows the flat memory `m` in the window and is unchanged
elsewhere. -/
structure Behind (W : BitVec 64 → Prop) (f : BitVec 64 → ℕ) (Keeps : Mem → Prop) (m₀ m m' : Mem) :
    Prop where
  shows : ∀ v, W v → m' (f v) = m v.toNat
  keeps : Keeps m'
  rest : ∀ a, (∀ v, W v → f v ≠ a) → m' a = m₀ a

/-- The flat memory that the places `f` show. -/
def view (f : BitVec 64 → ℕ) (m : Mem) : Mem := fun x => m (f (BitVec.ofNat 64 x))

section window

variable {W : BitVec 64 → Prop} {f : BitVec 64 → ℕ} {Keeps : Mem → Prop} {cr : Cr → BitVec 64}
  {m₀ m m' : Mem}

theorem Behind.gather (b : Behind W f Keeps m₀ m m') {vs : List (BitVec 64)}
    (hvs : ∀ x ∈ vs, W x) : gather m (vs.map BitVec.toNat) = gather m' (vs.map f) := by
  induction vs with
  | nil => rfl
  | cons v vs ih =>
      obtain ⟨hv, hrest⟩ := List.forall_mem_cons.mp hvs
      rw [List.map_cons, List.map_cons, BareMetal.gather, BareMetal.gather, b.shows v hv, ih hrest]

theorem Behind.write8 (w : Window W f Keeps cr) (b : Behind W f Keeps m₀ m m') {v : BitVec 64}
    (hv : W v) (x : BitVec 8) :
    Behind W f Keeps m₀ (write8 m v.toNat x) (write8 m' (f v) x) where
  shows u hu := by
    unfold BareMetal.write8
    by_cases he : u = v
    · rw [he, if_pos rfl, if_pos rfl]
    · rw [if_neg (fun h => he (w.inj u v hu hv h)), if_neg (fun h => he (BitVec.eq_of_toNat_eq h))]
      exact b.shows u hu
  keeps := w.keeps m' v x b.keeps hv
  rest a ha := by
    unfold BareMetal.write8
    rw [if_neg (Ne.symm (ha v hv))]
    exact b.rest a ha

theorem Behind.scatter (w : Window W f Keeps cr) {vs : List (BitVec 64)} (hvs : ∀ x ∈ vs, W x)
    (x : ℕ) (b : Behind W f Keeps m₀ m m') :
    Behind W f Keeps m₀ (scatter m x (vs.map BitVec.toNat)) (scatter m' x (vs.map f)) := by
  induction vs generalizing m m' x with
  | nil => exact b
  | cons v vs ih =>
      obtain ⟨hv, hrest⟩ := List.forall_mem_cons.mp hvs
      exact ih hrest (x / 256) (b.write8 w hv (BitVec.ofNat 8 x))

theorem Behind.start (h : Keeps m) : Behind W f Keeps m (view f m) m where
  shows v _ := by
    unfold view
    rw [BitVec.ofNat_toNat, BitVec.setWidth_eq]
  keeps := h
  rest _ _ := rfl

variable [DecidablePred W]

/-- The addresses of an access inside the window, and where they lie behind it. -/
theorem Window.places (w : Window W f Keeps cr) (hk : Keeps m') {n : ℕ} {v : BitVec 64}
    {ps : List ℕ} (h : places (inside W cr m) n v = some ps) :
    ∃ vs : List (BitVec 64), (∀ x ∈ vs, W x) ∧ ps = vs.map BitVec.toNat ∧
      places (mmu cr m') n v = some (vs.map f) := by
  induction n generalizing v ps with
  | zero =>
      obtain rfl : [] = ps := Option.some.inj h
      exact ⟨[], by simp, rfl, rfl⟩
  | succ n ih =>
      simp only [BareMetal.places, Option.bind_eq_bind, Option.bind_eq_some_iff,
        Option.pure_def, Option.some.injEq] at h
      obtain ⟨a, ha, qs, hqs, rfl⟩ := h
      unfold inside at ha
      by_cases hv : W v
      · rw [if_pos hv, Option.some.injEq] at ha
        obtain ⟨vs, hvs, rfl, hplaces⟩ := ih hqs
        refine ⟨v :: vs, List.forall_mem_cons.mpr ⟨hv, hvs⟩, by rw [← ha]; rfl, ?_⟩
        rw [BareMetal.places, w.mapped m' hk v hv, hplaces]
        rfl
      · rw [if_neg hv] at ha
        cases ha

/-- What `o`, behind the tables, comes to: `t`, with the memory that shows the one of `t`. -/
def Follows (W : BitVec 64 → Prop) (f : BitVec 64 → ℕ) (Keeps : Mem → Prop) (m₀ : Mem)
    (cr : Cr → BitVec 64) (o : Option Machine) (t : Machine) : Prop :=
  ∃ m', o = some { t with mem := m' } ∧ Behind W f Keeps m₀ t.mem m' ∧ t.cr = cr

variable {s t : Machine} (w : Window W f Keeps cr) (b : Behind W f Keeps m₀ s.mem m')
  (hcr : s.cr = cr)

include w b hcr

theorem Behind.load {n : ℕ} {v : BitVec 64} {x : ℕ} (h : s.load (inside W) n v = some x) :
    ({ s with mem := m' } : Machine).load mmu n v = some x := by
  obtain ⟨ps, hps, rfl⟩ := Option.map_eq_some_iff.mp h
  rw [hcr] at hps
  obtain ⟨vs, hvs, rfl, hplaces⟩ := w.places b.keeps hps
  unfold Machine.load
  rw [show ({ s with mem := m' } : Machine).cr = cr from hcr, hplaces, b.gather hvs]
  rfl

theorem Behind.store {n : ℕ} {v : BitVec 64} {x : ℕ} (h : s.store (inside W) n v x = some t) :
    Follows W f Keeps m₀ cr (({ s with mem := m' } : Machine).store mmu n v x) t := by
  obtain ⟨ps, hps, rfl⟩ := Option.map_eq_some_iff.mp h
  rw [hcr] at hps
  obtain ⟨vs, hvs, rfl, hplaces⟩ := w.places b.keeps hps
  refine ⟨_, ?_, b.scatter w hvs x, hcr⟩
  unfold Machine.store
  rw [show ({ s with mem := m' } : Machine).cr = cr from hcr, hplaces]
  rfl

theorem Behind.push {x : BitVec 64} (h : s.push (inside W) x = some t) :
    Follows W f Keeps m₀ cr (({ s with mem := m' } : Machine).push mmu x) t :=
  Behind.store (s := s.set .rsp (s.gpr .rsp - 8)) w b hcr h

theorem Behind.descriptor {sel : BitVec 16} {d : BitVec 64}
    (h : s.descriptor (inside W) sel = some d) :
    ({ s with mem := m' } : Machine).descriptor mmu sel = some d := by
  unfold Machine.descriptor at h ⊢
  simp only at h ⊢
  split_ifs at h with hsel
  obtain ⟨x, hx, rfl⟩ := Option.map_eq_some_iff.mp h
  rw [if_pos hsel, b.load w hcr hx]
  rfl

theorem Behind.loadSeg {ok : BitVec 64 → Bool} {g : Seg} {sel : BitVec 16}
    (h : s.loadSeg (inside W) ok g sel = some t) :
    Follows W f Keeps m₀ cr (({ s with mem := m' } : Machine).loadSeg mmu ok g sel) t := by
  unfold Machine.loadSeg at h ⊢
  simp only [Option.bind_eq_bind, Option.bind_eq_some_iff] at h
  obtain ⟨d, hd, h⟩ := h
  rw [b.descriptor w hcr hd]
  split_ifs at h with hok
  obtain rfl := Option.some.inj h
  refine ⟨m', ?_, b, hcr⟩
  simp only [Option.bind_eq_bind, Option.bind_some, if_pos hok]
  rfl

theorem Behind.stosq (h : s.stosq (inside W) = some t) :
    Follows W f Keeps m₀ cr (({ s with mem := m' } : Machine).stosq mmu) t := by
  obtain ⟨u, hu, rfl⟩ := Option.map_eq_some_iff.mp h
  obtain ⟨m₁, hm₁, hb, hucr⟩ := b.store w hcr hu
  refine ⟨m₁, ?_, hb, hucr⟩
  unfold Machine.stosq
  rw [hm₁]
  rfl

omit b hcr in
theorem Behind.repStosq {n : ℕ} (b : Behind W f Keeps m₀ s.mem m') (hcr : s.cr = cr)
    (h : s.repStosq (inside W) n = some t) :
    Follows W f Keeps m₀ cr (({ s with mem := m' } : Machine).repStosq mmu n) t := by
  induction n generalizing s m' with
  | zero =>
      obtain rfl := Option.some.inj h
      exact ⟨m', rfl, b, hcr⟩
  | succ n ih =>
      simp only [Machine.repStosq, Option.bind_eq_bind, Option.bind_eq_some_iff] at h ⊢
      obtain ⟨u, hu, h⟩ := h
      obtain ⟨m₁, hm₁, hb, hucr⟩ := b.stosq w hcr hu
      rw [hm₁]
      exact ih hb hucr h

/-- **One instruction.** -/
theorem Behind.exec {op : Op} (hop : op.steady = true) (h : op.exec (inside W) s = some t) :
    Follows W f Keeps m₀ cr (op.exec mmu { s with mem := m' }) t := by
  cases op with
  | reg op =>
      obtain rfl := Option.some.inj h
      refine ⟨m', ?_, ?_, ?_⟩
      · cases op <;> rfl
      · cases op <;> exact b
      · cases op <;> exact hcr
  | load n r q off =>
      simp only [Op.exec, Option.bind_eq_bind, Option.bind_eq_some_iff, Option.pure_def,
        Option.some.injEq] at h ⊢
      obtain ⟨x, hx, rfl⟩ := h
      rw [b.load w hcr hx]
      exact ⟨m', rfl, b, hcr⟩
  | store n a r => exact b.store w hcr h
  | push r => exact b.push w hcr h
  | pop r =>
      simp only [Op.exec, Option.bind_eq_bind, Option.bind_eq_some_iff, Option.pure_def,
        Option.some.injEq] at h ⊢
      obtain ⟨x, hx, rfl⟩ := h
      rw [b.load w hcr hx]
      exact ⟨m', rfl, b, hcr⟩
  | call ret => exact b.push w hcr h
  | lgdt n a =>
      simp only [Op.exec, Option.bind_eq_bind, Option.bind_eq_some_iff, Option.pure_def,
        Option.some.injEq] at h ⊢
      obtain ⟨limit, hlimit, base, hbase, rfl⟩ := h
      rw [b.load w hcr hlimit, b.load w hcr hbase]
      exact ⟨m', rfl, b, hcr⟩
  | movSeg g r => exact b.loadSeg w hcr h
  | jmpFar sel => exact b.loadSeg w hcr h
  | toCr k r => exact absurd hop (by simp [Op.steady])
  | rdmsr =>
      simp only [Op.exec] at h ⊢
      split_ifs at h with hmsr
      obtain rfl := Option.some.inj h
      exact ⟨m', if_pos hmsr, b, hcr⟩
  | wrmsr => exact absurd hop (by simp [Op.steady])
  | repStosq => exact b.repStosq w hcr h

omit b hcr in
/-- **Code behind the tables** does what it does on the flat memory. -/
theorem Behind.run {code : List Op} (hcode : code.all Op.steady = true)
    (b : Behind W f Keeps m₀ s.mem m') (hcr : s.cr = cr)
    (h : runOps (inside W) code s = some t) :
    Follows W f Keeps m₀ cr (runOps mmu code { s with mem := m' }) t := by
  induction code generalizing s m' with
  | nil =>
      obtain rfl := Option.some.inj h
      exact ⟨m', rfl, b, hcr⟩
  | cons op code ih =>
      simp only [runOps, Option.bind_eq_bind, Option.bind_eq_some_iff] at h ⊢
      obtain ⟨u, hu, h⟩ := h
      rw [List.all_cons, Bool.and_eq_true] at hcode
      obtain ⟨hop, hrest⟩ := hcode
      obtain ⟨m₁, hm₁, hb, hucr⟩ := b.exec w hcr hop hu
      rw [hm₁]
      exact ih hrest hb hucr h

end window

/-! ### Accesses to consecutive bytes -/

section runs

variable {bus : Bus} {s : Machine} {n : ℕ} {v : BitVec 64} {a : ℕ}

theorem Machine.load_eq (h : ∀ i < n, bus s.cr s.mem (v + BitVec.ofNat 64 i) = some (a + i)) :
    s.load bus n v = some (readLE n s.mem a) := by
  unfold Machine.load
  rw [places_range' h, Option.map_some, gather_range']

theorem Machine.store_eq (h : ∀ i < n, bus s.cr s.mem (v + BitVec.ofNat 64 i) = some (a + i))
    (x : ℕ) : s.store bus n v x = some { s with mem := writeLE n s.mem a x } := by
  unfold Machine.store
  rw [places_range' h, Option.map_some, scatter_range']

variable {W : BitVec 64 → Prop} [DecidablePred W]

theorem inside_range {cr : Cr → BitVec 64} {m : Mem} (hwrap : v.toNat + n ≤ 2 ^ 64)
    (h : ∀ w : BitVec 64, v.toNat ≤ w.toNat → w.toNat < v.toNat + n → W w) :
    ∀ i < n, inside W cr m (v + BitVec.ofNat 64 i) = some (v.toNat + i) := by
  intro i hi
  have hv : (v + BitVec.ofNat 64 i).toNat = v.toNat + i := toNat_add_ofNat (by omega)
  unfold inside
  rw [if_pos (h _ (by omega) (by omega)), hv]

/-- **Clearing**: `rep stosq` upwards with zero in `rax`. -/
theorem repStosq_clears (hdir : s.direction = false) (hrax : s.gpr .rax = 0)
    (hwrap : (s.gpr .rdi).toNat + 8 * n < 2 ^ 64)
    (h : ∀ w : BitVec 64, (s.gpr .rdi).toNat ≤ w.toNat →
      w.toNat < (s.gpr .rdi).toNat + 8 * n → W w) :
    ∃ g, s.repStosq (inside W) n = some { s with
        gpr := g
        mem := fill s.mem (s.gpr .rdi).toNat ((s.gpr .rdi).toNat + 8 * n) 0 } ∧
      ∀ q, q ≠ .rdi → q ≠ .rcx → g q = s.gpr q := by
  induction n generalizing s with
  | zero =>
      refine ⟨s.gpr, ?_, fun _ _ _ => rfl⟩
      rw [fill_empty _ (by omega)]
      rfl
  | succ n ih =>
      have hrange : ∀ i < 8, inside W s.cr s.mem (s.gpr .rdi + BitVec.ofNat 64 i) =
          some ((s.gpr .rdi).toNat + i) :=
        inside_range (by omega) (fun w hw hw' => h w hw (by omega))
      have hnext : (s.gpr .rdi + 8).toNat = (s.gpr .rdi).toNat + 8 :=
        toNat_add_ofNat (n := 8) (by omega)
      obtain ⟨u, hu⟩ : ∃ u : Machine, u =
          (({ s with mem := writeLE 8 s.mem (s.gpr .rdi).toNat 0 } : Machine).set .rdi
            (s.gpr .rdi + 8)).set .rcx (s.gpr .rcx - 1) := ⟨_, rfl⟩
      have hstep : s.stosq (inside W) = some u := by
        unfold Machine.stosq
        rw [Machine.store_eq hrange, hrax, Option.map_some, hu]
        simp only [hdir]
        rfl
      have hrdi : u.gpr .rdi = s.gpr .rdi + 8 := by rw [hu]; rfl
      have hother : ∀ q, q ≠ .rdi → q ≠ .rcx → u.gpr q = s.gpr q := by
        intro q hq hq'
        rw [hu]
        simp [Machine.set, hq, hq']
      obtain ⟨g, hg, hkeep⟩ := @ih u (by rw [hu]; exact hdir)
        (by rw [hother _ (by decide) (by decide)]; exact hrax)
        (by rw [hrdi, hnext]; omega) (fun w hw hw' => h w (by rw [hrdi, hnext] at hw; omega)
          (by rw [hrdi, hnext] at hw'; omega))
      refine ⟨g, ?_, fun q hq hq' => (hkeep q hq hq').trans (hother q hq hq')⟩
      have hmem : fill u.mem (u.gpr .rdi).toNat ((u.gpr .rdi).toNat + 8 * n) 0 =
          fill s.mem (s.gpr .rdi).toNat ((s.gpr .rdi).toNat + 8 * (n + 1)) 0 := by
        have hum : u.mem = writeLE 8 s.mem (s.gpr .rdi).toNat 0 := by rw [hu]; rfl
        rw [hrdi, hnext, hum]
        funext x
        unfold fill writeLE
        rw [Nat.zero_div]
        split_ifs <;> first | rfl | omega
      rw [Machine.repStosq, hstep]
      simp only [Option.bind_eq_bind, Option.bind_some]
      rw [hg, hmem, hu]
      rfl

/-- What is read behind the tables, in bytes of the flat memory. -/
theorem Behind.read {f : BitVec 64 → ℕ} {Keeps : Mem → Prop} {m₀ m : Mem}
    (w : Window W f Keeps s.cr) (b : Behind W f Keeps m₀ m s.mem) (hwrap : v.toNat + n ≤ 2 ^ 64)
    (h : ∀ w : BitVec 64, v.toNat ≤ w.toNat → w.toNat < v.toNat + n → W w) :
    s.load mmu n v = some (readLE n m v.toNat) :=
  Behind.load (s := { s with mem := m }) w b rfl (Machine.load_eq (inside_range hwrap h))

end runs

end BareMetal
