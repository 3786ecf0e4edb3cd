import Mathlib.Data.List.Pairwise
import Ziemniak.BareMetal.Memory
import Ziemniak.BareMetal.Words

/-! # Records in memory

How a C compiler and an assembler lay out the members of a record, and what one program reads
that another one has stored.  A `Struct φ` declares its members `φ` in order; `layout` gives each
its offset and size under an `Abi`, padded to the alignment of its type or packed, and an
assembler block is the list of its labels and directives.

All that matters for the exchange of a record is its list of `Placed` members: two declarations
with the same list read from each other's bytes what was stored (`readMember_storeMembers`).  A
program that assigns to the members one by one may do so in any order (`readLE_assign`). -/

namespace BareMetal

/-- The types of members. -/
inductive CType
  | uint8
  | uint16
  | uint32
  | uint64
  | ptr
deriving DecidableEq, Repr

/-- What differs between two targets: pointers, and the alignment of 64-bit integers. -/
structure Abi where
  ptrSize : ℕ
  align64 : ℕ

def i686 : Abi := { ptrSize := 4, align64 := 4 }
def x86_64 : Abi := { ptrSize := 8, align64 := 8 }

def Abi.size (abi : Abi) : CType → ℕ
  | .uint8 => 1
  | .uint16 => 2
  | .uint32 => 4
  | .uint64 => 8
  | .ptr => abi.ptrSize

def Abi.align (abi : Abi) : CType → ℕ
  | .uint64 => abi.align64
  | t => abi.size t

/-- The members of a record in order. -/
abbrev Struct (φ : Type) := List (φ × CType)

/-- Where a member lies. -/
structure Placed (φ : Type) where
  member : φ
  offset : ℕ
  size : ℕ
deriving DecidableEq, Repr

section layout

variable {φ : Type}

/-- The members from offset `o` on. -/
def Struct.layoutFrom (abi : Abi) (packed : Bool) : ℕ → Struct φ → List (Placed φ)
  | _, [] => []
  | o, (f, t) :: s =>
      let o := if packed then o else roundUp (abi.align t) o
      { member := f, offset := o, size := abi.size t } ::
        layoutFrom abi packed (o + abi.size t) s

def Struct.layout (abi : Abi) (packed : Bool) (s : Struct φ) : List (Placed φ) :=
  s.layoutFrom abi packed 0

/-- `sizeof`: the end of the last member, padded to the largest alignment. -/
def Struct.sizeof (abi : Abi) (packed : Bool) (s : Struct φ) : ℕ :=
  let e := ((s.layout abi packed).getLast?.map (fun p => p.offset + p.size)).getD 0
  if packed then e else roundUp ((s.map (fun m => abi.align m.2)).foldl max 1) e

/-- The directives that reserve a number. -/
inductive Directive
  | db
  | dw
  | dd
deriving DecidableEq, Repr

def Directive.size : Directive → ℕ
  | db => 1
  | dw => 2
  | dd => 4

/-- Labels with their directives: each number follows the one before. -/
def blockFrom : ℕ → List (φ × Directive) → List (Placed φ)
  | _, [] => []
  | o, (f, d) :: b => { member := f, offset := o, size := d.size } :: blockFrom (o + d.size) b

/-- No two members share a byte. -/
def NoAlias (l : List (Placed φ)) : Prop := l.Pairwise (fun p q => p.offset + p.size ≤ q.offset)

theorem blockFrom_offset {o : ℕ} {b : List (φ × Directive)} {p : Placed φ}
    (hp : p ∈ blockFrom o b) : o ≤ p.offset := by
  induction b generalizing o with
  | nil => cases hp
  | cons m b ih =>
      cases List.mem_cons.mp hp with
      | inl h => rw [h]
      | inr h => exact (Nat.le_add_right o _).trans (ih h)

theorem blockFrom_noAlias (o : ℕ) (b : List (φ × Directive)) : NoAlias (blockFrom o b) := by
  induction b generalizing o with
  | nil => exact List.Pairwise.nil
  | cons m b ih => exact List.Pairwise.cons (fun q hq => blockFrom_offset hq) (ih _)

theorem Struct.layoutFrom_offset {abi : Abi} (habi : ∀ t, 0 < abi.align t) {packed : Bool} {o : ℕ}
    {s : Struct φ} {p : Placed φ} (hp : p ∈ s.layoutFrom abi packed o) : o ≤ p.offset := by
  induction s generalizing o with
  | nil => cases hp
  | cons m s ih =>
      have hup : o ≤ if packed then o else roundUp (abi.align m.2) o := by
        split_ifs
        · exact le_rfl
        · exact le_roundUp (habi m.2) o
      cases List.mem_cons.mp hp with
      | inl h =>
          rw [h]
          exact hup
      | inr h => exact hup.trans ((Nat.le_add_right _ _).trans (ih h))

theorem Struct.layout_noAlias {abi : Abi} (habi : ∀ t, 0 < abi.align t) (packed : Bool)
    (s : Struct φ) : NoAlias (s.layout abi packed) := by
  unfold layout
  obtain ⟨o, ho⟩ : ∃ o, o = 0 := ⟨0, rfl⟩
  rw [← ho]
  clear ho
  induction s generalizing o with
  | nil => exact List.Pairwise.nil
  | cons m s ih => exact List.Pairwise.cons (fun q hq => layoutFrom_offset habi hq) (ih _)

theorem i686_align (t : CType) : 0 < i686.align t := by cases t <;> decide

theorem x86_64_align (t : CType) : 0 < x86_64.align t := by cases t <;> decide

end layout

/-! ### Assembled numbers -/

/-- Numbers with their sizes, each behind the one before. -/
def emit : Mem → ℕ → List (ℕ × ℕ) → Mem
  | m, _, [] => m
  | m, a, (n, v) :: l => emit (writeLE n m a v) (a + n) l

/-- Where number `i` begins. -/
def emitOffset (l : List (ℕ × ℕ)) (i : ℕ) : ℕ := ((l.take i).map Prod.fst).sum

theorem emit_of_lt {m : Mem} {a x : ℕ} {l : List (ℕ × ℕ)} (hx : x < a) : emit m a l x = m x := by
  induction l generalizing m a with
  | nil => rfl
  | cons d l ih =>
      rw [emit, ih (by omega)]
      exact writeLE_of_not_mem (Or.inl hx)

theorem readLE_emit {l : List (ℕ × ℕ)} {i n v o k : ℕ} (hi : l.getD i (0, 0) = (n, v))
    (hk : o + k ≤ n) (m : Mem) (a : ℕ) :
    readLE k (emit m a l) (a + emitOffset l i + o) = v / 256 ^ o % 256 ^ k := by
  induction l generalizing i m a with
  | nil =>
      obtain ⟨rfl, rfl⟩ : 0 = n ∧ 0 = v := by simpa using hi
      obtain rfl : k = 0 := by omega
      rw [Nat.zero_div, Nat.zero_mod]
      rfl
  | cons d l ih =>
      cases i with
      | zero =>
          rw [List.getD_cons_zero] at hi
          have hrest : ∀ x, a + o ≤ x → x < a + o + k →
              emit (writeLE n m a v) (a + n) l x = writeLE n m a v x :=
            fun x _ hx => emit_of_lt (by omega)
          rw [hi, ← readLE_writeLE_inside hk m a v]
          exact readLE_congr hrest
      | succ i =>
          rw [List.getD_cons_succ] at hi
          have hoff : a + emitOffset (d :: l) (i + 1) = a + d.1 + emitOffset l i := by
            unfold emitOffset
            rw [List.take_succ_cons, List.map_cons, List.sum_cons, Nat.add_assoc]
          rw [hoff]
          exact ih hi (writeLE d.1 m a d.2) (a + d.1)

/-! ### Storing and reading -/

section members

variable {φ : Type}

/-- Store every member at its place. -/
def storeMembers (m : Mem) (a : ℕ) (v : φ → ℕ) : List (Placed φ) → Mem
  | [] => m
  | p :: l => storeMembers (writeLE p.size m (a + p.offset) (v p.member)) a v l

/-- The number at the place of member `f`. -/
def readMember [DecidableEq φ] (m : Mem) (a : ℕ) (l : List (Placed φ)) (f : φ) : ℕ :=
  match l.find? (fun p => p.member = f) with
  | some p => readLE p.size m (a + p.offset)
  | none => 0

theorem readLE_storeMembers_disjoint {k b : ℕ} {m : Mem} {a : ℕ} {v : φ → ℕ}
    {l : List (Placed φ)} (h : ∀ p ∈ l, b + k ≤ p.offset) :
    readLE k (storeMembers m a v l) (a + b) = readLE k m (a + b) := by
  induction l generalizing m with
  | nil => rfl
  | cons p l ih =>
      have hp := h p List.mem_cons_self
      rw [storeMembers, ih (fun q hq => h q (List.mem_cons_of_mem p hq)),
        readLE_writeLE_disjoint (Or.inl (by omega))]

/-- Every member is read at its place as it was stored. -/
theorem readLE_storeMembers {l : List (Placed φ)} (hl : NoAlias l) {p : Placed φ} (hp : p ∈ l)
    (m : Mem) (a : ℕ) (v : φ → ℕ) :
    readLE p.size (storeMembers m a v l) (a + p.offset) = v p.member % 256 ^ p.size := by
  induction l generalizing m with
  | nil => cases hp
  | cons q l ih =>
      obtain ⟨hhead, htail⟩ := List.pairwise_cons.mp hl
      rw [storeMembers]
      cases List.mem_cons.mp hp with
      | inl h =>
          rw [h, readLE_storeMembers_disjoint hhead, readLE_writeLE]
      | inr h => exact ih htail h _

/-- **The exchange** of a record: every member is read as it was stored. -/
theorem readMember_storeMembers [DecidableEq φ] {l : List (Placed φ)} (hl : NoAlias l)
    {v : φ → ℕ} (hv : ∀ p ∈ l, v p.member < 256 ^ p.size) {f : φ}
    (hf : f ∈ l.map Placed.member) (m : Mem) (a : ℕ) :
    readMember (storeMembers m a v l) a l f = v f := by
  unfold readMember
  cases hfind : l.find? (fun p => p.member = f) with
  | none =>
      obtain ⟨p, hp, hpf⟩ := List.mem_map.mp hf
      exact absurd (decide_eq_true hpf) (List.find?_eq_none.mp hfind p hp)
  | some p =>
      have hp := List.mem_of_find?_eq_some hfind
      have hpf : p.member = f := by simpa using List.find?_some hfind
      simp only
      rw [readLE_storeMembers hl hp, Nat.mod_eq_of_lt (hv p hp), hpf]

theorem NoAlias.disjoint {l : List (Placed φ)} (hl : NoAlias l) {p q : Placed φ} (hp : p ∈ l)
    (hq : q ∈ l) (hne : p ≠ q) : p.offset + p.size ≤ q.offset ∨ q.offset + q.size ≤ p.offset := by
  let R := fun p q : Placed φ => p.offset + p.size ≤ q.offset ∨ q.offset + q.size ≤ p.offset
  have hsymm : Std.Symm R := ⟨fun _ _ h => h.symm⟩
  have hpair : l.Pairwise R := hl.imp Or.inl
  exact hpair.forall hp hq hne

/-! ### Assignments -/

variable [DecidableEq φ]

/-- `r->f = v` for the record at `a`. -/
def storeMember (l : List (Placed φ)) (a : ℕ) (m : Mem) (f : φ) (v : ℕ) : Mem :=
  match l.find? (fun p => p.member = f) with
  | some p => writeLE p.size m (a + p.offset) v
  | none => m

/-- Assignments to members in the order of the program. -/
def assign (l : List (Placed φ)) (a : ℕ) (m : Mem) (vs : List (φ × ℕ)) : Mem :=
  vs.foldl (fun m x => storeMember l a m x.1 x.2) m

variable {l : List (Placed φ)} {a : ℕ} {m : Mem}

@[simp] theorem assign_cons (x : φ × ℕ) (vs : List (φ × ℕ)) :
    assign l a m (x :: vs) = assign l a (storeMember l a m x.1 x.2) vs := rfl

/-- No member is declared twice. -/
def DistinctMembers (l : List (Placed φ)) : Prop := (l.map Placed.member).Nodup

theorem find_member (hl : DistinctMembers l) {p : Placed φ} (hp : p ∈ l) :
    l.find? (fun q => q.member = p.member) = some p := by
  unfold DistinctMembers at hl
  induction l with
  | nil => cases hp
  | cons q l ih =>
      rw [List.map_cons, List.nodup_cons] at hl
      cases List.mem_cons.mp hp with
      | inl h =>
          rw [h]
          exact List.find?_cons_of_pos (by simp)
      | inr h =>
          have hne : q.member ≠ p.member := by
            intro heq
            exact hl.1 (heq ▸ List.mem_map_of_mem h)
          rw [List.find?_cons_of_neg (by simpa using hne)]
          exact ih hl.2 h

theorem storeMember_of_not_mem {n : ℕ} (hn : ∀ p ∈ l, p.offset + p.size ≤ n) (f : φ) (v : ℕ)
    {x : ℕ} (hx : x < a ∨ a + n ≤ x) : storeMember l a m f v x = m x := by
  unfold storeMember
  cases hfind : l.find? (fun p => p.member = f) with
  | none => rfl
  | some p =>
      have hp := hn p (List.mem_of_find?_eq_some hfind)
      exact writeLE_of_not_mem (by omega)

theorem assign_of_not_mem {n : ℕ} (hn : ∀ p ∈ l, p.offset + p.size ≤ n) (vs : List (φ × ℕ))
    {x : ℕ} (hx : x < a ∨ a + n ≤ x) : assign l a m vs x = m x := by
  induction vs generalizing m with
  | nil => rfl
  | cons v vs ih => rw [assign_cons, ih, storeMember_of_not_mem hn v.1 v.2 hx]

theorem readLE_assign_ne (hl : NoAlias l) {p : Placed φ} (hp : p ∈ l) {vs : List (φ × ℕ)}
    (hvs : p.member ∉ vs.map Prod.fst) :
    readLE p.size (assign l a m vs) (a + p.offset) = readLE p.size m (a + p.offset) := by
  induction vs generalizing m with
  | nil => rfl
  | cons v vs ih =>
      rw [List.map_cons, List.mem_cons, not_or] at hvs
      rw [assign_cons, ih hvs.2]
      unfold storeMember
      cases hfind : l.find? (fun q => q.member = v.1) with
      | none => rfl
      | some q =>
          have hq := List.mem_of_find?_eq_some hfind
          have hqv : q.member = v.1 := by simpa using List.find?_some hfind
          have hne : p ≠ q := by
            rintro rfl
            exact hvs.1 hqv
          have hdisj := hl.disjoint hp hq hne
          exact readLE_writeLE_disjoint (by omega)

/-- **Assignments in any order**: a member holds what was assigned to it. -/
theorem readLE_assign (hl : NoAlias l) (hnames : DistinctMembers l) {vs : List (φ × ℕ)}
    (hvs : (vs.map Prod.fst).Nodup) {p : Placed φ} (hp : p ∈ l) {v : ℕ}
    (hv : (p.member, v) ∈ vs) :
    readLE p.size (assign l a m vs) (a + p.offset) = v % 256 ^ p.size := by
  induction vs generalizing m with
  | nil => cases hv
  | cons x vs ih =>
      rw [List.map_cons, List.nodup_cons] at hvs
      rw [assign_cons]
      cases List.mem_cons.mp hv with
      | inl h =>
          rw [← h] at hvs ⊢
          rw [readLE_assign_ne hl hp hvs.1]
          unfold storeMember
          simp only [find_member hnames hp]
          exact readLE_writeLE ..
      | inr h => exact ih hvs.2 h

end members

end BareMetal
