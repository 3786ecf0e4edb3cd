import Ziemniak.Kernel.MemoryMap
import Ziemniak.Stage2.E820
import Ziemniak.Stage2.IdDrive
import Ziemniak.Stage2.Main

/-! # The records handed over

The records that one part of the boot chain stores and the next one reads: `rm_data`, which
`stub.asm` reserves and `stage2.c` reads, and `lm_data` and the memory map, which the loader
stores and the kernel reads.  Each is declared as in its source; the loader is built for i686
and the kernel for x86_64.  The declarations ask for packing in a place where compilers may
ignore it, so every layout is taken both packed and padded. -/

namespace Ziemniak.Kernel

open BareMetal Stage2

/-! ### `lm_data` -/

inductive LongModeMember
  | framebuf_ptr | font_ptr | memmap_ptr | load_buf | load_end | peek_entry | memmap_size
  | scr_width | scr_height | boot_disk_io | boot_disk_ctl | is_boot_disk_slv | red_pos | green_pos
  | blue_pos | rsrvd_pos
deriving DecidableEq, Repr

/-- The members of both declarations, the addresses with type `t`. -/
def longModeMembers (t : CType) : Struct LongModeMember :=
  [(.framebuf_ptr, t), (.font_ptr, t), (.memmap_ptr, t), (.load_buf, t), (.load_end, t),
    (.peek_entry, t), (.memmap_size, .uint16), (.scr_width, .uint16), (.scr_height, .uint16),
    (.boot_disk_io, .uint16), (.boot_disk_ctl, .uint16), (.is_boot_disk_slv, .uint8),
    (.red_pos, .uint8), (.green_pos, .uint8), (.blue_pos, .uint8), (.rsrvd_pos, .uint8)]

/-- `struct long_mode_data` of the loader. -/
def longModeDataStage2 : Struct LongModeMember := longModeMembers .uint64

/-- `struct long_mode_data` of the kernel. -/
def longModeDataKernel : Struct LongModeMember := longModeMembers .ptr

def longModeValue (v : LongModeData) : LongModeMember → ℕ
  | .framebuf_ptr => v.framebuf_ptr.toNat
  | .font_ptr => v.font_ptr.toNat
  | .memmap_ptr => v.memmap_ptr.toNat
  | .load_buf => v.load_buf.toNat
  | .load_end => v.load_end.toNat
  | .peek_entry => v.peek_entry.toNat
  | .memmap_size => v.memmap_size.toNat
  | .scr_width => v.scr_width.toNat
  | .scr_height => v.scr_height.toNat
  | .boot_disk_io => v.boot_disk_io.toNat
  | .boot_disk_ctl => v.boot_disk_ctl.toNat
  | .is_boot_disk_slv => v.is_boot_disk_slv.toNat
  | .red_pos => v.red_pos.toNat
  | .green_pos => v.green_pos.toNat
  | .blue_pos => v.blue_pos.toNat
  | .rsrvd_pos => v.rsrvd_pos.toNat

/-! ### The memory map -/

inductive MemMapMember
  | base | len | type | attrs
deriving DecidableEq, Repr

/-- `struct mem_map` of the loader. -/
def memMapStruct : Struct MemMapMember :=
  [(.base, .uint64), (.len, .uint64), (.type, .uint32), (.attrs, .uint32)]

/-- `struct memmap` of the kernel; `len` is the union with `end`. -/
def memmapStruct : Struct MemMapMember :=
  [(.base, .uint64), (.len, .uint64), (.type, .uint32), (.attrs, .uint32)]

def memMapValue (v : MemMap) : MemMapMember → ℕ
  | .base => v.base.toNat
  | .len => v.len.toNat
  | .type => v.type.toNat
  | .attrs => v.attrs.toNat

/-! ### The places of the members -/

theorem realMode_places (packed : Bool) :
    realModeDataStruct.layout i686 packed = blockFrom 0 rmDataBlock := by
  cases packed <;> rfl

theorem longMode_places (packed packed' : Bool) :
    longModeDataStage2.layout i686 packed = longModeDataKernel.layout x86_64 packed' := by
  cases packed <;> cases packed' <;> rfl

theorem memMap_places (packed packed' : Bool) :
    memMapStruct.layout i686 packed = memmapStruct.layout x86_64 packed' := by
  cases packed <;> cases packed' <;> rfl

/-- The bytes that `main` stores are those of the loader's declaration. -/
theorem storeLongModeData_eq (packed : Bool) (m : Mem) (a : ℕ) (v : LongModeData) :
    storeLongModeData m a v =
      storeMembers m a (longModeValue v) (longModeDataStage2.layout i686 packed) := by
  cases packed <;> rfl

theorem readMemMap_value (packed : Bool) (m : Mem) (a : ℕ) (f : MemMapMember) :
    memMapValue (readMemMap m a) f = readMember m a (memmapStruct.layout x86_64 packed) f := by
  have h64 : ∀ b, (read64 m b).toNat = readLE 8 m b := by
    intro b
    exact Nat.mod_eq_of_lt (readLE_lt m 8 b)
  rw [← memMap_places false packed]
  cases f with
  | base => exact h64 a
  | len => exact h64 (a + 8)
  | type => exact read32_toNat m (a + 16)
  | attrs => exact read32_toNat m (a + 20)

/-! ### The values -/

theorem realModeValue_lt (v : RealModeData) :
    ∀ p ∈ blockFrom 0 rmDataBlock, realModeValue v p.member < 256 ^ p.size := by
  unfold rmDataBlock
  simp only [blockFrom, List.forall_mem_cons, Directive.size, realModeValue]
  refine ⟨v.framebuf_ptr.isLt, v.font_ptr.isLt, v.red_pos.isLt, v.green_pos.isLt,
    v.blue_pos.isLt, v.rsrvd_pos.isLt, v.memmap_seg.isLt, v.memmap_size.isLt, v.scr_width.isLt,
    v.scr_height.isLt, v.boot_disk.isLt, v.is_boot_disk_slv.isLt, v.boot_disk_io.isLt,
    v.boot_disk_ctl.isLt, ?_⟩
  exact fun _ h => nomatch h

theorem longModeValue_lt (v : LongModeData) :
    ∀ p ∈ longModeDataStage2.layout i686 true, longModeValue v p.member < 256 ^ p.size := by
  unfold longModeDataStage2 longModeMembers
  simp only [Struct.layout, Struct.layoutFrom, List.forall_mem_cons, Abi.size, longModeValue]
  refine ⟨v.framebuf_ptr.isLt, v.font_ptr.isLt, v.memmap_ptr.isLt, v.load_buf.isLt,
    v.load_end.isLt, v.peek_entry.isLt, v.memmap_size.isLt, v.scr_width.isLt, v.scr_height.isLt,
    v.boot_disk_io.isLt, v.boot_disk_ctl.isLt, v.is_boot_disk_slv.isLt, v.red_pos.isLt,
    v.green_pos.isLt, v.blue_pos.isLt, v.rsrvd_pos.isLt, ?_⟩
  exact fun _ h => nomatch h

theorem memMapValue_lt (v : MemMap) :
    ∀ p ∈ memMapStruct.layout i686 true, memMapValue v p.member < 256 ^ p.size := by
  unfold memMapStruct
  simp only [Struct.layout, Struct.layoutFrom, List.forall_mem_cons, Abi.size, memMapValue]
  exact ⟨v.base.isLt, v.len.isLt, v.type.isLt, v.attrs.isLt, fun _ h => nomatch h⟩

/-! ### The exchange -/

/-- **The records agree**: the loader reads from the bytes of `stub.asm`, and the kernel from those
of the loader, every member as it was stored; an entry of the memory map, whoever stored its
bytes, is the same one for both.  No two members share a byte, and both step over an entry by 24
bytes. -/
theorem handoff_formats (packed packed' : Bool) (m : Mem) (a : ℕ) :
    (∀ v f, readMember (storeMembers m a (realModeValue v) (blockFrom 0 rmDataBlock)) a
      (realModeDataStruct.layout i686 packed) f = realModeValue v f) ∧
    (∀ v f, readMember (storeLongModeData m a v) a
      (longModeDataKernel.layout x86_64 packed') f = longModeValue v f) ∧
    (∀ v f, readMember (storeMembers m a (memMapValue v) (memMapStruct.layout i686 packed)) a
      (memmapStruct.layout x86_64 packed') f = memMapValue v f) ∧
    (∀ f, readMember m a (memmapStruct.layout x86_64 packed') f =
      memMapValue (readMemMap m a) f) ∧
    (NoAlias (realModeDataStruct.layout i686 packed) ∧
      NoAlias (longModeDataStage2.layout i686 packed) ∧
      NoAlias (longModeDataKernel.layout x86_64 packed') ∧
      NoAlias (memMapStruct.layout i686 packed) ∧
      NoAlias (memmapStruct.layout x86_64 packed')) ∧
    memMapStruct.sizeof i686 packed = MEM_MAP_SIZE ∧
    memmapStruct.sizeof x86_64 packed' = MEM_MAP_SIZE := by
  refine ⟨?_, ?_, ?_, ?_, ?_, ?_, ?_⟩
  · intro v f
    rw [realMode_places packed]
    refine readMember_storeMembers (blockFrom_noAlias 0 _) (realModeValue_lt v) ?_ m a
    cases f <;> decide
  · intro v f
    rw [storeLongModeData_eq true, ← longMode_places true packed']
    refine readMember_storeMembers (Struct.layout_noAlias i686_align true _)
      (longModeValue_lt v) ?_ m a
    cases f <;> decide
  · intro v f
    rw [memMap_places packed packed', ← memMap_places true packed']
    refine readMember_storeMembers (Struct.layout_noAlias i686_align true _)
      (memMapValue_lt v) ?_ m a
    cases f <;> decide
  · intro f
    exact (readMemMap_value packed' m a f).symm
  · exact ⟨Struct.layout_noAlias i686_align packed _, Struct.layout_noAlias i686_align packed _,
      Struct.layout_noAlias x86_64_align packed' _, Struct.layout_noAlias i686_align packed _,
      Struct.layout_noAlias x86_64_align packed' _⟩
  · cases packed <;> rfl
  · cases packed' <;> rfl

end Ziemniak.Kernel
