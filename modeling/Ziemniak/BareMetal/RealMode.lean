import Ziemniak.BareMetal.Memory
import Ziemniak.BareMetal.Words

/-! # Real-mode memory accesses

A segment and an offset give the address `16 * seg + off`.  With the A20 line off its bit 20 is
lost.  Offsets wrap within their segment.  Addresses through two segments differ by a multiple of
16 or are the same byte of one segment (`linear_mod`, `linear_eq_offset`). -/

namespace BareMetal.RealMode

def linear (a20 : Bool) (seg off : BitVec 16) : ℕ :=
  if a20 then seg.toNat * 16 + off.toNat else (seg.toNat * 16 + off.toNat) % 2 ^ 20

def load8 (a20 : Bool) (m : Mem) (seg off : BitVec 16) : BitVec 8 := m (linear a20 seg off)

def load16 (a20 : Bool) (m : Mem) (seg off : BitVec 16) : BitVec 16 :=
  load8 a20 m seg (off + 1) ++ load8 a20 m seg off

def store8 (a20 : Bool) (m : Mem) (seg off : BitVec 16) (v : BitVec 8) : Mem :=
  write8 m (linear a20 seg off) v

def store16 (a20 : Bool) (m : Mem) (seg off v : BitVec 16) : Mem :=
  store8 a20 (store8 a20 m seg off (v.setWidth 8)) seg (off + 1) ((v >>> 8).setWidth 8)

theorem linear_zero (a20 : Bool) (off : BitVec 16) : linear a20 0 off = off.toNat := by
  have hoff := off.isLt
  have hzero : (0 : BitVec 16).toNat = 0 := rfl
  unfold linear
  rw [hzero, Nat.zero_mul, Nat.zero_add, Nat.mod_eq_of_lt (by omega), ite_self]

theorem linear_mod (a20 : Bool) (seg off : BitVec 16) :
    linear a20 seg off % 16 = off.toNat % 16 := by
  unfold linear
  split_ifs <;> omega

/-- Only segment 0 reaches the address that is the offset itself. -/
theorem linear_eq_offset {a20 : Bool} {seg off : BitVec 16} :
    linear a20 seg off = off.toNat ↔ seg = 0 := by
  constructor
  · intro h
    have hseg := seg.isLt
    have hoff := off.isLt
    have hzero : (0 : BitVec 16).toNat = 0 := rfl
    apply BitVec.eq_of_toNat_eq
    rw [hzero]
    unfold linear at h
    split_ifs at h <;> omega
  · rintro rfl
    exact linear_zero a20 off

theorem store8_same (a20 : Bool) (m : Mem) (seg off : BitVec 16) (v : BitVec 8) :
    store8 a20 m seg off v (linear a20 seg off) = v := if_pos rfl

theorem store8_ne {a20 : Bool} {m : Mem} {seg off : BitVec 16} {v : BitVec 8} {x : ℕ}
    (h : x ≠ linear a20 seg off) : store8 a20 m seg off v x = m x := if_neg h

theorem store16_of_ne {a20 : Bool} {m : Mem} {off v : BitVec 16} {x : ℕ}
    (hoff : off.toNat + 1 < 2 ^ 16) (hx : x < off.toNat ∨ off.toNat + 2 ≤ x) :
    store16 a20 m 0 off v x = m x := by
  have hnext : (off + 1).toNat = off.toNat + 1 := toNat_add_ofNat (n := 1) hoff
  unfold store16
  rw [store8_ne (by rw [linear_zero]; omega), store8_ne (by rw [linear_zero]; omega)]

theorem load16_store16 (a20 : Bool) (m : Mem) {off : BitVec 16} (v : BitVec 16)
    (hoff : off.toNat + 1 < 2 ^ 16) :
    load16 a20 (store16 a20 m 0 off v) 0 off = v := by
  have hnext : (off + 1).toNat = off.toNat + 1 := toNat_add_ofNat (n := 1) hoff
  have hne : linear a20 0 off ≠ linear a20 0 (off + 1) := by
    rw [linear_zero, linear_zero, hnext]
    omega
  unfold load16 load8 store16
  rw [store8_same, store8_ne hne, store8_same]
  apply BitVec.eq_of_toNat_eq
  have hv := v.isLt
  rw [toNat_append_eq, BitVec.toNat_setWidth, BitVec.toNat_setWidth, BitVec.toNat_ushiftRight,
    Nat.shiftRight_eq_div_pow]
  omega

theorem load16_congr {a20 : Bool} {m m' : Mem} {seg off : BitVec 16}
    (h0 : m (linear a20 seg off) = m' (linear a20 seg off))
    (h1 : m (linear a20 seg (off + 1)) = m' (linear a20 seg (off + 1))) :
    load16 a20 m seg off = load16 a20 m' seg off := by
  unfold load16 load8
  rw [h0, h1]

end BareMetal.RealMode
