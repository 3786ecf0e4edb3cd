import Ziemniak.BareMetal.BitFields
import Ziemniak.BareMetal.Paging
import Ziemniak.Kernel.Defs
import Ziemniak.Stage2.Defs

/-! # The two encoders of page entries

The kernel and the loader each declare the bit fields of a page entry, five in one declaration
and thirteen in the other.  `PageEntry.word_fields` and `pageWord_fields` say that the words of
the models are what a compiler makes of these declarations.

`pageEntries_agree` says what the processor finds in an entry of the kernel, and that the loader
stores the same words. -/

namespace Ziemniak.Kernel

open BareMetal Stage2

/-! ### The encoders of the other levels -/

def PML4_FLAG_MASK : BitVec 16 := 0x1F
def PTE_FLAG_MASK : BitVec 16 := 0x19F

def genPml4 (addr : BitVec 64) (nx : Bool) (flags : BitVec 16) : PageEntry :=
  genEntry addr nx (flags &&& PML4_FLAG_MASK)

def genPte (addr : BitVec 64) (nx : Bool) (flags : BitVec 16) : PageEntry :=
  genEntry addr nx (flags &&& PTE_FLAG_MASK)

/-! ### The declarations -/

inductive EntryField
  | flags | avl2 | addr | avl1 | nx
deriving DecidableEq, Repr

/-- `struct page_entry` -/
def pageEntryFields : BitFields EntryField :=
  [(.flags, 9), (.avl2, 3), (.addr, 40), (.avl1, 11), (.nx, 1)]

def PageEntry.value (p : PageEntry) : EntryField → ℕ
  | .flags => p.flags.toNat
  | .avl2 => p.avl2.toNat
  | .addr => p.addr.toNat
  | .avl1 => p.avl1.toNat
  | .nx => p.nx.toNat

inductive PageField
  | pres | writ | user | wr_th | d_cach | accd | dirty | big | glob | avl2 | addr | avl1 | nx
deriving DecidableEq, Repr

/-- `struct page` -/
def pageFields : BitFields PageField :=
  [(.pres, 1), (.writ, 1), (.user, 1), (.wr_th, 1), (.d_cach, 1), (.accd, 1), (.dirty, 1),
    (.big, 1), (.glob, 1), (.avl2, 3), (.addr, 40), (.avl1, 11), (.nx, 1)]

def pageValue (p : Page) : PageField → ℕ
  | .pres => p.pres.toNat
  | .writ => p.writ.toNat
  | .user => p.user.toNat
  | .wr_th => p.wr_th.toNat
  | .d_cach => p.d_cach.toNat
  | .accd => p.accd.toNat
  | .dirty => p.dirty.toNat
  | .big => p.big.toNat
  | .glob => p.glob.toNat
  | .avl2 => p.avl2.toNat
  | .addr => p.addr.toNat
  | .avl1 => p.avl1.toNat
  | .nx => p.nx.toNat

/-- The places in one unit of 64 bits. -/
def entryPlaces : List (FieldAt EntryField) :=
  [⟨.flags, 0, 9⟩, ⟨.avl2, 9, 3⟩, ⟨.addr, 12, 40⟩, ⟨.avl1, 52, 11⟩, ⟨.nx, 63, 1⟩]

theorem pageEntryFields_places : pageEntryFields.placeFrom 64 0 = entryPlaces := by decide

theorem PageEntry.word_fields (p : PageEntry) :
    p.word.toNat = storeFields p.value (pageEntryFields.placeFrom 64 0) := by
  have hflags := p.flags.isLt
  have havl2 := p.avl2.isLt
  have haddr := p.addr.isLt
  have havl1 := p.avl1.isLt
  have hnx := p.nx.isLt
  rw [pageEntryFields_places]
  unfold PageEntry.word entryPlaces
  simp only [toNat_append_eq, storeFields_cons, storeFields_nil, FieldAt.store, PageEntry.value,
    Nat.mod_eq_of_lt hflags, Nat.mod_eq_of_lt havl2, Nat.mod_eq_of_lt haddr,
    Nat.mod_eq_of_lt havl1, Nat.mod_eq_of_lt hnx]
  ring

theorem pageWord_fields (p : Page) :
    p.word.toNat = storeFields (pageValue p) (pageFields.placeFrom 64 0) := by
  have hplaces : pageFields.placeFrom 64 0 = [⟨.pres, 0, 1⟩, ⟨.writ, 1, 1⟩, ⟨.user, 2, 1⟩,
      ⟨.wr_th, 3, 1⟩, ⟨.d_cach, 4, 1⟩, ⟨.accd, 5, 1⟩, ⟨.dirty, 6, 1⟩, ⟨.big, 7, 1⟩,
      ⟨.glob, 8, 1⟩, ⟨.avl2, 9, 3⟩, ⟨.addr, 12, 40⟩, ⟨.avl1, 52, 11⟩, ⟨.nx, 63, 1⟩] := by decide
  have hmod : ∀ {w : ℕ} (x : BitVec w), x.toNat % 2 ^ w = x.toNat :=
    fun x => Nat.mod_eq_of_lt x.isLt
  rw [hplaces]
  unfold Page.word
  simp only [toNat_append_eq, storeFields_cons, storeFields_nil, FieldAt.store, pageValue, hmod]
  ring

/-! ### What the processor finds -/

/-- The parts of an entry: nine flags, the address in bits 12 to 51, the bit that forbids
execution, and zeros between them. -/
structure EntryIs (w : BitVec 64) (addr : ℕ) (flags : BitVec 16) (nx : Bool) : Prop where
  flags : (w.extractLsb' 0 9).setWidth 16 = flags
  address : Paging.frame w = addr
  nx : w.getLsbD 63 = nx
  avl2 : w.extractLsb' 9 3 = 0
  avl1 : w.extractLsb' 52 11 = 0

theorem PageEntry.read_word (p : PageEntry) {q : FieldAt EntryField} (hq : q ∈ entryPlaces) :
    (p.word.extractLsb' q.low q.width).toNat = p.value q.field % 2 ^ q.width := by
  have happart : Apart (pageEntryFields.placeFrom 64 0) :=
    BitFields.placeFrom_apart (by norm_num) 0 _
  have hread := read_storeFields happart p.value (p := q) (by rwa [pageEntryFields_places])
  rw [← p.word_fields] at hread
  rw [BitVec.extractLsb'_toNat, Nat.shiftRight_eq_div_pow]
  exact hread

theorem frame_eq_extract (w : BitVec 64) :
    Paging.frame w = (w.extractLsb' 12 40).toNat * 4096 := by
  rw [BitVec.extractLsb'_toNat, Nat.shiftRight_eq_div_pow]
  unfold Paging.frame
  omega

theorem genEntry_is {addr : BitVec 64} (haddr : addr.toNat < 2 ^ 52) (nx : Bool)
    {flags : BitVec 16} (hflags : flags.toNat < 512) :
    EntryIs (genEntry addr nx flags).word (roundDown 4096 addr.toNat) flags nx := by
  have hf : ((genEntry addr nx flags).word.extractLsb' 0 9).toNat =
      (flags.setWidth 9).toNat % 2 ^ 9 := PageEntry.read_word _ (q := ⟨.flags, 0, 9⟩) (by decide)
  have ha : ((genEntry addr nx flags).word.extractLsb' 12 40).toNat =
      ((addr >>> 12).setWidth 40).toNat % 2 ^ 40 :=
    PageEntry.read_word _ (q := ⟨.addr, 12, 40⟩) (by decide)
  have hn : ((genEntry addr nx flags).word.extractLsb' 63 1).toNat =
      (if nx then 1 else 0 : BitVec 1).toNat % 2 ^ 1 :=
    PageEntry.read_word _ (q := ⟨.nx, 63, 1⟩) (by decide)
  refine ⟨?_, ?_, ?_, ?_, ?_⟩
  · apply BitVec.eq_of_toNat_eq
    rw [BitVec.toNat_setWidth, hf, BitVec.toNat_setWidth]
    omega
  · rw [frame_eq_extract, ha, BitVec.toNat_setWidth, BitVec.toNat_ushiftRight,
      Nat.shiftRight_eq_div_pow, roundDown]
    omega
  · have hbit : (genEntry addr nx flags).word.getLsbD 63 =
        ((genEntry addr nx flags).word.extractLsb' 63 1).getLsbD 0 := by
      rw [BitVec.getLsbD_extractLsb']
      rfl
    have hword : (genEntry addr nx flags).word.extractLsb' 63 1 = if nx then 1 else 0 := by
      apply BitVec.eq_of_toNat_eq
      rw [hn, Nat.mod_eq_of_lt (BitVec.isLt _)]
    rw [hbit, hword]
    cases nx <;> rfl
  · exact BitVec.eq_of_toNat_eq (PageEntry.read_word _ (q := ⟨.avl2, 9, 3⟩) (by decide))
  · exact BitVec.eq_of_toNat_eq (PageEntry.read_word _ (q := ⟨.avl1, 52, 11⟩) (by decide))

theorem masked_lt {mask : BitVec 16} (hmask : mask.toNat < 512) (flags : BitVec 16) :
    (flags &&& mask).toNat < 512 := by
  rw [BitVec.toNat_and]
  exact lt_of_le_of_lt Nat.and_le_right hmask

/-! ### The loader's words -/

theorem genPde_word (addr : BitVec 32) (big : BitVec 64) :
    (genPde addr big).word.toNat = addr.toNat / 4096 * 4096 + big.toNat % 2 * 128 + 3 := by
  have haddr := addr.isLt
  unfold Page.word genPde
  simp only [toNat_append_eq]
  simp [Nat.shiftRight_eq_div_pow]
  omega

/-- A directory entry of the loader is one of the kernel, with the flags of a table or of a page
of 2 MiB; of `big` only the lowest bit counts. -/
theorem genPde_eq (addr : BitVec 32) (big : BitVec 64) : (genPde addr big).word =
    (genPdpePde (addr.setWidth 64) false (if big.getLsbD 0 then 0x83 else 0x03)).word := by
  have haddr := addr.isLt
  have hbig : big.getLsbD 0 = decide (big.toNat % 2 = 1) := by
    rw [← BitVec.testBit_toNat, Nat.testBit_zero]
  apply BitVec.eq_of_toNat_eq
  unfold genPdpePde
  rw [genPde_word, genEntry_word, BitVec.toNat_setWidth_of_le (by norm_num), hbig]
  by_cases hodd : big.toNat % 2 = 1
  · have hflags : ((0x83 : BitVec 16) &&& PDPE_FLAG_MASK).toNat = 0x83 := rfl
    simp only [hodd, decide_true, if_true, hflags, Bool.toNat_false]
    omega
  · have hflags : ((0x03 : BitVec 16) &&& PDPE_FLAG_MASK).toNat = 0x03 := rfl
    have heven : big.toNat % 2 = 0 := by omega
    simp only [heven, Nat.zero_ne_one, decide_false, Bool.false_eq_true, if_false, hflags,
      Bool.toNat_false]
    omega

/-- **The encoders.**  The word of every level decodes to the page, to the flags of that level and
to the execution bit, with nothing else in it; and the loader stores the words that the kernel
would. -/
theorem pageEntries_agree {addr : BitVec 64} (haddr : addr.toNat < 2 ^ 52) (nx : Bool)
    (flags : BitVec 16) :
    (EntryIs (genPml4 addr nx flags).word (roundDown 4096 addr.toNat) (flags &&& 0x1F) nx ∧
      EntryIs (genPdpePde addr nx flags).word (roundDown 4096 addr.toNat) (flags &&& 0x9F) nx ∧
      EntryIs (genPte addr nx flags).word (roundDown 4096 addr.toNat) (flags &&& 0x19F) nx) ∧
    ∀ addr' : BitVec 32,
      (genPml4ePdpePte addr').word = (genPdpePde (addr'.setWidth 64) false 0x03).word ∧
      (genPde addr' 1).word = (genPdpePde (addr'.setWidth 64) false 0x83).word ∧
      ∀ big : BitVec 64, (genPde addr' big).word =
        (genPdpePde (addr'.setWidth 64) false (if big.getLsbD 0 then 0x83 else 0x03)).word := by
  refine ⟨⟨?_, ?_, ?_⟩, ?_⟩
  · exact genEntry_is haddr nx (masked_lt (by decide) flags)
  · exact genEntry_is haddr nx (masked_lt (by decide) flags)
  · exact genEntry_is haddr nx (masked_lt (by decide) flags)
  · intro addr'
    refine ⟨?_, genPde_eq addr' 1, genPde_eq addr'⟩
    rw [← genPde_zero]
    exact genPde_eq addr' 0

theorem pageEntries_agree_frame :
    EntryIs (genPdpePde 0xFD123456 true 0xFFFF).word 0xFD123000 0x9F true :=
  (@pageEntries_agree 0xFD123456 (by decide) true 0xFFFF).1.2.1

end Ziemniak.Kernel
