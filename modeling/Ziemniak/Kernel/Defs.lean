import Ziemniak.BareMetal.Words

/-! # Data of the kernel

The rounding macros of the kernel's `defs.h`, the error numbers of `errno.h` and the records of
`mm.c`.  The entry functions mask the flags of their level and put the page's number into the
forty address bits; `PageEntry.word` is the word the bit fields are stored as. -/

namespace Ziemniak.Kernel

open BareMetal

/-! ### Macros -/

def BLOCK_SIZE : BitVec 64 := 2097152

def pageUp (x : BitVec 64) : BitVec 64 := (x + 4095) &&& 0xFFFFFFFFFFFFF000
def pageDown (x : BitVec 64) : BitVec 64 := x &&& 0xFFFFFFFFFFFFF000
def blockUp (x : BitVec 64) : BitVec 64 := (x + 2097151) &&& 0xFFFFFFFFFFE00000
def blockDown (x : BitVec 64) : BitVec 64 := x &&& 0xFFFFFFFFFFE00000

theorem pageDown_toNat (x : BitVec 64) : (pageDown x).toNat = roundDown 4096 x.toNat :=
  toNat_and_highMask x 12

theorem pageUp_toNat {x : BitVec 64} (h : x.toNat + 4095 < 2 ^ 64) :
    (pageUp x).toNat = roundUp 4096 x.toNat := by
  have e : (pageUp x).toNat = roundDown 4096 (x + 4095).toNat := pageDown_toNat (x + 4095)
  have hadd : (x + 4095).toNat = x.toNat + 4095 := toNat_add_ofNat (n := 4095) h
  rw [e, hadd]
  rfl

theorem blockDown_toNat (x : BitVec 64) : (blockDown x).toNat = x.toNat / 2097152 * 2097152 :=
  toNat_and_highMask x 21

theorem blockUp_toNat (x : BitVec 64) :
    (blockUp x).toNat = (x.toNat + 2097151) % 2 ^ 64 / 2097152 * 2097152 := by
  have e : (blockUp x).toNat = (x + 2097151).toNat / 2097152 * 2097152 := blockDown_toNat _
  rw [e, BitVec.toNat_add]
  rfl

/-! ### Error numbers -/

def EIO : ℕ := 1
def EINVAL : ℕ := 2
def EPERM : ℕ := 3
def ENOTSUP : ℕ := 4

/-! ### Records -/

/-- One entry of the memory map: after `mm_init` the second word is its end. -/
structure Memmap where
  base : BitVec 64
  len : BitVec 64
  type : BitVec 32
  attrs : BitVec 32
deriving DecidableEq, Repr

/-- The other name of the union. -/
def Memmap.end_ (e : Memmap) : BitVec 64 := e.len

def FREE_RAM : BitVec 32 := 1

/-- The words of the table that `peek_pde` points to. -/
abbrev PeekTable := ℕ → BitVec 64

/-- A paging entry. -/
structure PageEntry where
  flags : BitVec 9 := 0
  avl2 : BitVec 3 := 0
  addr : BitVec 40 := 0
  avl1 : BitVec 11 := 0
  nx : BitVec 1 := 0
deriving DecidableEq, Repr

/-- The 64-bit word of an entry, the first field in the lowest bits. -/
def PageEntry.word (p : PageEntry) : BitVec 64 := p.nx ++ p.avl1 ++ p.addr ++ p.avl2 ++ p.flags

def PDPE_FLAG_MASK : BitVec 16 := 0x9F

def genEntry (addr : BitVec 64) (nx : Bool) (flags : BitVec 16) : PageEntry where
  addr := (addr >>> 12).setWidth 40
  flags := flags.setWidth 9
  nx := if nx then 1 else 0

def genPdpePde (addr : BitVec 64) (nx : Bool) (flags : BitVec 16) : PageEntry :=
  genEntry addr nx (flags &&& PDPE_FLAG_MASK)

theorem genEntry_word (addr : BitVec 64) (nx : Bool) (flags : BitVec 16) :
    (genEntry addr nx flags).word.toNat = nx.toNat * 2 ^ 63 +
      addr.toNat / 4096 % 2 ^ 40 * 4096 + flags.toNat % 512 := by
  unfold PageEntry.word genEntry
  simp only [toNat_append_eq, BitVec.toNat_setWidth, BitVec.toNat_ushiftRight,
    Nat.shiftRight_eq_div_pow]
  cases nx <;> simp <;> omega

end Ziemniak.Kernel
