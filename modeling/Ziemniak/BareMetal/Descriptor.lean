import Ziemniak.BareMetal.Struct

/-! # Descriptor tables

What an x86 processor finds in the tables that its table registers name.  A gate has the address
of its handler in two or three pieces (`offset32`, `offset64`), a system segment has its base in
four (`systemSegment`); the type byte decides whether the entry can be used at all.

Programs fill a table entry by entry.  When every store stays in its own entry (`OwnEntry`), an
entry holds in the end what its own store put there, in any order (`foldl_own`), and an entry
that no store is for is unchanged (`foldl_other`). -/

namespace BareMetal

/-- The same bytes in the `n` addresses from `a` on. -/
def AgreeOn (m m' : Mem) (a n : ℕ) : Prop := ∀ x, a ≤ x → x < a + n → m x = m' x

theorem AgreeOn.trans {m m' m'' : Mem} {a n : ℕ} (h : AgreeOn m m' a n) (h' : AgreeOn m' m'' a n) :
    AgreeOn m m'' a n := by
  intro x hx hxn
  rw [h x hx hxn, h' x hx hxn]

theorem AgreeOn.readLE {m m' : Mem} {a n : ℕ} (h : AgreeOn m m' a n) {o k : ℕ} (hk : o + k ≤ n) :
    readLE k m (a + o) = readLE k m' (a + o) := by
  apply readLE_congr
  intro x hx hxk
  exact h x (by omega) (by omega)

/-- `IDTR` or `GDTR`. -/
structure TableReg where
  base : ℕ
  limit : ℕ
deriving DecidableEq, Repr

/-! ### Gates -/

inductive GateKind
  | interrupt
  | trap
deriving DecidableEq, Repr

/-- A gate with a handler at an address of `w` bits; `ist` is 0 when the stack is not switched. -/
structure Gate (w : ℕ) where
  target : BitVec w
  selector : BitVec 16
  ist : ℕ
  dpl : ℕ
  kind : GateKind
deriving DecidableEq, Repr

/-- The kind of a gate with its type byte, if the present bit is set. -/
def gateKind (attr : ℕ) : Option GateKind :=
  if attr / 128 % 2 = 0 then none
  else if attr % 32 = 0x0E then some .interrupt
  else if attr % 32 = 0x0F then some .trap
  else none

def offset32 (m : Mem) (a : ℕ) : BitVec 32 :=
  BitVec.ofNat 32 (readLE 2 m a + 2 ^ 16 * readLE 2 m (a + 6))

def offset64 (m : Mem) (a : ℕ) : BitVec 64 :=
  BitVec.ofNat 64 (readLE 2 m a + 2 ^ 16 * readLE 2 m (a + 6) + 2 ^ 32 * readLE 4 m (a + 8))

/-- What both formats have in common. -/
def gateAt {w : ℕ} (target : BitVec w) (ist : ℕ) (m : Mem) (a : ℕ) : Option (Gate w) :=
  (gateKind (readLE 1 m (a + 5))).map fun kind =>
    { target
      selector := BitVec.ofNat 16 (readLE 2 m (a + 2))
      ist
      dpl := readLE 1 m (a + 5) / 32 % 4
      kind }

/-- The gate in the 8 bytes at `a`. -/
def gate32 (m : Mem) (a : ℕ) : Option (Gate 32) := gateAt (offset32 m a) 0 m a

/-- The gate in the 16 bytes at `a`. -/
def gate64 (m : Mem) (a : ℕ) : Option (Gate 64) :=
  gateAt (offset64 m a) (readLE 1 m (a + 4) % 8) m a

/-- What the processor goes through for a vector: nothing behind the limit. -/
def vector32 (r : TableReg) (m : Mem) (v : ℕ) : Option (Gate 32) :=
  if 8 * v + 7 ≤ r.limit then gate32 m (r.base + 8 * v) else none

def vector64 (r : TableReg) (m : Mem) (v : ℕ) : Option (Gate 64) :=
  if 16 * v + 15 ≤ r.limit then gate64 m (r.base + 16 * v) else none

/-- A table of `n` entries serves the vectors below `n`. -/
theorem vector32_of_limit {n : ℕ} (hn : 0 < n) (base : ℕ) (m : Mem) (v : ℕ) :
    vector32 ⟨base, 8 * n - 1⟩ m v = if v < n then gate32 m (base + 8 * v) else none := by
  have hlimit : 8 * v + 7 ≤ 8 * n - 1 ↔ v < n := by omega
  exact if_congr hlimit rfl rfl

theorem vector64_of_limit {n : ℕ} (hn : 0 < n) (base : ℕ) (m : Mem) (v : ℕ) :
    vector64 ⟨base, 16 * n - 1⟩ m v = if v < n then gate64 m (base + 16 * v) else none := by
  have hlimit : 16 * v + 15 ≤ 16 * n - 1 ↔ v < n := by omega
  exact if_congr hlimit rfl rfl

section pieces

variable {m m' : Mem} {a : ℕ}

theorem offset32_of_pieces {x : BitVec 32} (hlow : readLE 2 m a = x.toNat % 2 ^ 16)
    (hhigh : readLE 2 m (a + 6) = x.toNat / 2 ^ 16 % 2 ^ 16) : offset32 m a = x := by
  have hx := x.isLt
  unfold offset32
  rw [hlow, hhigh]
  apply BitVec.eq_of_toNat_eq
  rw [BitVec.toNat_ofNat]
  omega

theorem offset64_of_pieces {x : BitVec 64} (hlow : readLE 2 m a = x.toNat % 2 ^ 16)
    (hmid : readLE 2 m (a + 6) = x.toNat / 2 ^ 16 % 2 ^ 16)
    (hhigh : readLE 4 m (a + 8) = x.toNat / 2 ^ 32 % 2 ^ 32) : offset64 m a = x := by
  have hx := x.isLt
  unfold offset64
  rw [hlow, hmid, hhigh]
  apply BitVec.eq_of_toNat_eq
  rw [BitVec.toNat_ofNat]
  omega

theorem gate32_congr (h : AgreeOn m m' a 8) : gate32 m a = gate32 m' a := by
  have h0 : readLE 2 m a = readLE 2 m' a := h.readLE (o := 0) (by norm_num)
  have h2 := h.readLE (o := 2) (k := 2) (by norm_num)
  have h5 := h.readLE (o := 5) (k := 1) (by norm_num)
  have h6 := h.readLE (o := 6) (k := 2) (by norm_num)
  unfold gate32 gateAt offset32
  rw [h0, h2, h5, h6]

theorem gate64_congr (h : AgreeOn m m' a 16) : gate64 m a = gate64 m' a := by
  have h0 : readLE 2 m a = readLE 2 m' a := h.readLE (o := 0) (by norm_num)
  have h2 := h.readLE (o := 2) (k := 2) (by norm_num)
  have h4 := h.readLE (o := 4) (k := 1) (by norm_num)
  have h5 := h.readLE (o := 5) (k := 1) (by norm_num)
  have h6 := h.readLE (o := 6) (k := 2) (by norm_num)
  have h8 := h.readLE (o := 8) (k := 4) (by norm_num)
  unfold gate64 gateAt offset64
  rw [h0, h2, h4, h5, h6, h8]

end pieces

/-! ### System segments -/

/-- A system segment of the 64-bit modes, such as a task state segment. -/
structure SystemSegment where
  base : BitVec 64
  limit : ℕ
  type : ℕ
  flags : ℕ
deriving DecidableEq, Repr

/-- The descriptor in the 16 bytes at `a`. -/
def systemSegment (m : Mem) (a : ℕ) : SystemSegment where
  base := BitVec.ofNat 64 (readLE 2 m (a + 2) + 2 ^ 16 * readLE 1 m (a + 4) +
    2 ^ 24 * readLE 1 m (a + 7) + 2 ^ 32 * readLE 4 m (a + 8))
  limit := readLE 2 m a + 2 ^ 16 * (readLE 1 m (a + 6) % 16)
  type := readLE 1 m (a + 5)
  flags := readLE 1 m (a + 6) / 16

theorem systemSegment_congr {m m' : Mem} {a : ℕ} (h : AgreeOn m m' a 16) :
    systemSegment m a = systemSegment m' a := by
  have hread : ∀ k b, a ≤ b → b + k ≤ a + 16 → readLE k m b = readLE k m' b := by
    intro k b hb hk
    exact readLE_congr (fun x hx hx' => h x (by omega) (by omega))
  unfold systemSegment
  rw [hread 2 a (by omega) (by omega), hread 2 (a + 2) (by omega) (by omega),
    hread 1 (a + 4) (by omega) (by omega), hread 1 (a + 5) (by omega) (by omega),
    hread 1 (a + 6) (by omega) (by omega), hread 1 (a + 7) (by omega) (by omega),
    hread 4 (a + 8) (by omega) (by omega)]

/-! ### Filling a table -/

section fill

variable {κ : Type} {store : Mem → κ → Mem} {index : κ → ℕ} {base size : ℕ}

/-- The store of `c` changes entry `index c` only. -/
def OwnEntry (store : Mem → κ → Mem) (index : κ → ℕ) (base size : ℕ) : Prop :=
  ∀ m c j, j ≠ index c → AgreeOn (store m c) m (base + size * j) size

theorem OwnEntry.of_frame (h : ∀ m c x, x < base + size * index c ∨
    base + size * index c + size ≤ x → store m c x = m x) : OwnEntry store index base size := by
  intro m c j hj x hx hxn
  apply h
  rcases Nat.lt_or_gt_of_ne hj with hlt | hgt
  · have hmul : size * (j + 1) ≤ size * index c := Nat.mul_le_mul_left size hlt
    rw [Nat.mul_succ] at hmul
    omega
  · have hmul : size * (index c + 1) ≤ size * j := Nat.mul_le_mul_left size hgt
    rw [Nat.mul_succ] at hmul
    omega

theorem foldl_other (h : OwnEntry store index base size) {cs : List κ} {j : ℕ}
    (hj : j ∉ cs.map index) (m : Mem) : AgreeOn (cs.foldl store m) m (base + size * j) size := by
  induction cs generalizing m with
  | nil => exact fun _ _ _ => rfl
  | cons c cs ih =>
      rw [List.map_cons, List.mem_cons, not_or] at hj
      exact (ih hj.2 (store m c)).trans (h m c j hj.1)

/-- **The entry of a store** is as that store has left it. -/
theorem foldl_own (h : OwnEntry store index base size) {cs : List κ} (hcs : (cs.map index).Nodup)
    {c : κ} (hc : c ∈ cs) (m : Mem) :
    ∃ m₀, AgreeOn (cs.foldl store m) (store m₀ c) (base + size * index c) size := by
  induction cs generalizing m with
  | nil => cases hc
  | cons d cs ih =>
      rw [List.map_cons, List.nodup_cons] at hcs
      cases List.mem_cons.mp hc with
      | inl heq =>
          rw [heq]
          exact ⟨m, foldl_other h hcs.1 (store m d)⟩
      | inr hmem => exact ih hcs.2 hmem (store m d)

end fill

end BareMetal
