import Ziemniak.BareMetal.Memory

/-! # The four-level page walk

Address translation of a 64-bit x86 processor with four paging levels and 52 physical address
bits.  A table is 512 words of 64 bits; the level with shift `s` (39, 30, 21 or 12) is indexed
by bits `s … s + 8` of the virtual address.

* An entry whose bit 0 is clear is not present and ends the walk in a fault.
* Bit 7 of a PDPTE or PDE makes it a page of `2 ^ 30` or `2 ^ 21` bytes.  Such an entry supplies
  the physical bits from the page size up to bit 51, and its bits from 13 up to the page size
  are reserved: one of them set is a fault (`page`).
* Bit 7 of a PML4E is reserved.

`walk m cr3 v` is `some a` when the walk of `v` through the tables in `m` yields the physical
address `a`, and `none` when it faults.  Access rights are not modelled. -/

namespace BareMetal.Paging

/-- The virtual addresses whose bits 47 … 63 agree. -/
def Canonical (v : BitVec 64) : Prop := v.toNat < 2 ^ 47 ∨ 2 ^ 64 - 2 ^ 47 ≤ v.toNat

instance (v : BitVec 64) : Decidable (Canonical v) := inferInstanceAs (Decidable (_ ∨ _))

/-- Index of `v` into the table of the level with shift `s`. -/
def index (s : ℕ) (v : BitVec 64) : ℕ := v.toNat / 2 ^ s % 512

theorem index_lt (s : ℕ) (v : BitVec 64) : index s v < 512 := Nat.mod_lt _ (by norm_num)

def present (e : BitVec 64) : Bool := e.toNat % 2 == 1

def pageSize (e : BitVec 64) : Bool := e.toNat / 2 ^ 7 % 2 == 1

/-- Bits 12 … 51, the address of the next table. -/
def frame (e : BitVec 64) : ℕ := e.toNat % 2 ^ 52 / 2 ^ 12 * 2 ^ 12

/-- The address in a page of `2 ^ k` bytes, unless a reserved bit is set. -/
def page (k : ℕ) (e v : BitVec 64) : Option ℕ :=
  if e.toNat / 2 ^ 13 % 2 ^ (k - 13) = 0 then
    some (e.toNat % 2 ^ 52 / 2 ^ k * 2 ^ k + v.toNat % 2 ^ k)
  else none

def walkPte (e v : BitVec 64) : Option ℕ := if present e then page 12 e v else none

def walkPde (m : Mem) (e v : BitVec 64) : Option ℕ :=
  if present e then
    if pageSize e then page 21 e v else walkPte (read64 m (frame e + 8 * index 12 v)) v
  else none

def walkPdpte (m : Mem) (e v : BitVec 64) : Option ℕ :=
  if present e then
    if pageSize e then page 30 e v else walkPde m (read64 m (frame e + 8 * index 21 v)) v
  else none

def walkPml4e (m : Mem) (e v : BitVec 64) : Option ℕ :=
  if present e && !pageSize e then walkPdpte m (read64 m (frame e + 8 * index 30 v)) v else none

/-- The page walk that starts at the table `cr3` points to. -/
def walk (m : Mem) (cr3 v : BitVec 64) : Option ℕ :=
  if Canonical v then walkPml4e m (read64 m (frame cr3 + 8 * index 39 v)) v else none

/-! ### Entries -/

@[simp] theorem walkPml4e_zero (m : Mem) (v : BitVec 64) : walkPml4e m 0#64 v = none := rfl

theorem page_small (e v : BitVec 64) : page 12 e v = some (frame e + v.toNat % 2 ^ 12) := by
  simp [page, frame, Nat.mod_one]

end BareMetal.Paging
