import Ziemniak.BareMetal.Descriptor
import Ziemniak.BareMetal.Ports

/-! # The interrupt table of the loader

`interrupt.c`: `gen_entry` stores one gate, and `init_idt` stores all 48 of them, loads the table
and lets interrupts through.  `genEntry_own` and `genEntry_other` say what one call does, and
`initIdt_vectors` what the processor finds for every vector in the end. -/

namespace Ziemniak.Stage2

open BareMetal

/-! ### The entries -/

inductive IdtEntryMember
  | offset_low | sel | zero | attr | offset_high
deriving DecidableEq, Repr

/-- `struct idt_entry` -/
def idtEntryStruct : Struct IdtEntryMember :=
  [(.offset_low, .uint16), (.sel, .uint16), (.zero, .uint8), (.attr, .uint8),
    (.offset_high, .uint16)]

def idtEntryPlaces : List (BareMetal.Placed IdtEntryMember) := idtEntryStruct.layout i686 true

/-- The members lie at the same places without `__packed`, and an entry has 8 bytes. -/
theorem idtEntry_places (packed : Bool) : idtEntryStruct.layout i686 packed = idtEntryPlaces ∧
    idtEntryStruct.sizeof i686 packed = 8 := by
  cases packed <;> exact ⟨rfl, rfl⟩

/-- The assignments of `gen_entry`, in its order. -/
def entryValues (sel : BitVec 16) (offset : BitVec 32) (attr : BitVec 8) :
    List (IdtEntryMember × ℕ) :=
  let off := offset
  [(.offset_low, (off &&& 0xFFFF).toNat),
    (.offset_high, ((off >>> 16) &&& 0xFFFF).toNat),
    (.zero, 0x00),
    (.sel, sel.toNat),
    (.attr, attr.toNat)]

/-- `gen_entry`, for the table `idt`. -/
def genEntry (idt : ℕ) (m : Mem) (id : BitVec 8) (sel : BitVec 16) (offset : BitVec 32)
    (attr : BitVec 8) : Mem :=
  assign idtEntryPlaces (idt + 8 * id.toNat) m (entryValues sel offset attr)

theorem idtEntryPlaces_noAlias : NoAlias idtEntryPlaces :=
  Struct.layout_noAlias i686_align true idtEntryStruct

theorem idtEntryPlaces_distinct : DistinctMembers idtEntryPlaces := by
  unfold DistinctMembers
  decide

section genEntry

variable (idt : ℕ) (m : Mem) (id : BitVec 8) (sel : BitVec 16) (offset : BitVec 32)
  (attr : BitVec 8)

theorem genEntry_member {p : BareMetal.Placed IdtEntryMember} (hp : p ∈ idtEntryPlaces) {v : ℕ}
    (hv : (p.member, v) ∈ entryValues sel offset attr) :
    readLE p.size (genEntry idt m id sel offset attr) (idt + 8 * id.toNat + p.offset) =
      v % 256 ^ p.size := by
  have hnames : ((entryValues sel offset attr).map Prod.fst).Nodup := by
    show [IdtEntryMember.offset_low, .offset_high, .zero, .sel, .attr].Nodup
    decide
  exact readLE_assign idtEntryPlaces_noAlias idtEntryPlaces_distinct hnames hp hv

theorem genEntry_own : offset32 (genEntry idt m id sel offset attr) (idt + 8 * id.toNat) = offset ∧
    readLE 2 (genEntry idt m id sel offset attr) (idt + 8 * id.toNat + 2) = sel.toNat ∧
    readLE 1 (genEntry idt m id sel offset attr) (idt + 8 * id.toNat + 5) = attr.toNat := by
  have hlow := genEntry_member idt m id sel offset attr (p := ⟨.offset_low, 0, 2⟩) (by decide)
    (v := (offset &&& 0xFFFF).toNat) (by simp [entryValues])
  have hhigh := genEntry_member idt m id sel offset attr (p := ⟨.offset_high, 6, 2⟩) (by decide)
    (v := ((offset >>> 16) &&& 0xFFFF).toNat) (by simp [entryValues])
  have hsel := genEntry_member idt m id sel offset attr (p := ⟨.sel, 2, 2⟩) (by decide)
    (v := sel.toNat) (by simp [entryValues])
  have hattr := genEntry_member idt m id sel offset attr (p := ⟨.attr, 5, 1⟩) (by decide)
    (v := attr.toNat) (by simp [entryValues])
  have hlow16 : (offset &&& 0xFFFF).toNat = offset.toNat % 2 ^ 16 :=
    toNat_and_lowMask offset 16 (by norm_num)
  have hhigh16 : ((offset >>> 16) &&& 0xFFFF).toNat = offset.toNat / 2 ^ 16 % 2 ^ 16 :=
    toNat_shift_lowMask offset 16 16 (by norm_num)
  rw [hlow16] at hlow
  rw [hhigh16] at hhigh
  exact ⟨offset32_of_pieces (hlow.trans (Nat.mod_mod _ _)) (hhigh.trans (Nat.mod_mod _ _)),
    hsel.trans (Nat.mod_eq_of_lt sel.isLt), hattr.trans (Nat.mod_eq_of_lt attr.isLt)⟩

theorem genEntry_frame {x : ℕ} (hx : x < idt + 8 * id.toNat ∨ idt + 8 * id.toNat + 8 ≤ x) :
    genEntry idt m id sel offset attr x = m x :=
  assign_of_not_mem (by decide) _ hx

theorem genEntry_gate {kind : GateKind} (hkind : gateKind attr.toNat = some kind) :
    gate32 (genEntry idt m id sel offset attr) (idt + 8 * id.toNat) =
      some { target := offset, selector := sel, ist := 0, dpl := attr.toNat / 32 % 4, kind } := by
  obtain ⟨hoffset, hsel, hattr⟩ := genEntry_own idt m id sel offset attr
  unfold gate32 gateAt
  rw [hoffset, hsel, hattr, hkind, BitVec.ofNat_toNat, BitVec.setWidth_eq]
  rfl

end genEntry

/-! ### The table -/

/-- The gate a vector is meant to have: in the first code segment, with the stack as it is, and with
the interrupt flag cleared on the way in for all but the exceptions. -/
def plainGate {w : ℕ} (target : BitVec w) (v : ℕ) : Gate w where
  target := target
  selector := 0x08
  ist := 0
  dpl := 0
  kind := if v < 32 then .trap else .interrupt

def PRES_F : BitVec 8 := 1 <<< 7
def RING0_F : BitVec 8 := 0 <<< 5
def G_IRQ_32 : BitVec 8 := 0x0E
def G_TRAP_32 : BitVec 8 := 0x0F

/-- The addresses of the handlers. -/
structure IsrAddresses where
  exception : BitVec 32
  exception_err : BitVec 32
  irq_low : BitVec 32
  irq_high : BitVec 32
  irq_disk1 : BitVec 32
  irq_disk2 : BitVec 32
deriving DecidableEq, Repr

/-- A call of `gen_entry`. -/
structure GateCall where
  id : BitVec 8
  sel : BitVec 16
  offset : BitVec 32
  attr : BitVec 8
deriving DecidableEq, Repr

def GateCall.exec (idt : ℕ) (m : Mem) (c : GateCall) : Mem :=
  genEntry idt m c.id c.sel c.offset c.attr

theorem exec_ownEntry (idt : ℕ) : OwnEntry (GateCall.exec idt) (fun c => c.id.toNat) idt 8 :=
  OwnEntry.of_frame (fun m c _ hx => genEntry_frame idt m c.id c.sel c.offset c.attr hx)

theorem genEntry_other (idt : ℕ) (m : Mem) (id : BitVec 8) (sel : BitVec 16) (offset : BitVec 32)
    (attr : BitVec 8) {j : ℕ} (hj : j ≠ id.toNat) :
    AgreeOn (genEntry idt m id sel offset attr) m (idt + 8 * j) 8 :=
  exec_ownEntry idt m ⟨id, sel, offset, attr⟩ j hj

section initIdt

variable (isr : IsrAddresses)

/-- The handlers of the exceptions, from 0 on. -/
def exceptionHandlers : List (BitVec 32) :=
  [isr.exception, isr.exception, isr.exception, isr.exception,
    isr.exception, isr.exception, isr.exception, isr.exception,
    isr.exception_err, isr.exception, isr.exception_err, isr.exception_err,
    isr.exception_err, isr.exception_err, isr.exception_err, isr.exception,
    isr.exception, isr.exception_err, isr.exception, isr.exception,
    isr.exception, isr.exception_err, isr.exception, isr.exception,
    isr.exception, isr.exception, isr.exception, isr.exception,
    isr.exception, isr.exception_err, isr.exception_err, isr.exception]

/-- The calls of `init_idt`, in its order. -/
def initIdtCalls : List GateCall :=
  (exceptionHandlers isr).zipIdx.map
      (fun x => ⟨BitVec.ofNat 8 x.2, 0x08, x.1, PRES_F ||| RING0_F ||| G_TRAP_32⟩) ++
    (List.range' 32 8).map
      (fun entry => ⟨BitVec.ofNat 8 entry, 0x08, isr.irq_low, PRES_F ||| RING0_F ||| G_IRQ_32⟩) ++
    (List.range' 40 6).map
      (fun entry => ⟨BitVec.ofNat 8 entry, 0x08, isr.irq_high, PRES_F ||| RING0_F ||| G_IRQ_32⟩) ++
    [⟨46, 0x08, isr.irq_disk1, PRES_F ||| RING0_F ||| G_IRQ_32⟩,
      ⟨47, 0x08, isr.irq_disk2, PRES_F ||| RING0_F ||| G_IRQ_32⟩]

variable {δ : Type} (dev : Device δ)

def remapPic (d : δ) : δ :=
  let d := dev.outb 0x20 0x11 d
  let d := dev.outb 0xA0 0x11 d
  let d := dev.outb 0x21 0x20 d
  let d := dev.outb 0xA1 0x28 d
  let d := dev.outb 0x21 0x04 d
  let d := dev.outb 0xA1 0x02 d
  let d := dev.outb 0x21 0x01 d
  let d := dev.outb 0xA1 0x01 d
  let d := dev.outb 0x21 0x00 d
  dev.outb 0xA1 0x00 d

/-- What `init_idt` works on; `enabled` is the interrupt flag. -/
structure IdtState (δ : Type) where
  mem : Mem
  data_ready : BitVec 32
  idtr : TableReg
  enabled : Bool
  dev : δ

def initIdt (idt : ℕ) (drdy : BitVec 32) (s : IdtState δ) : IdtState δ :=
  let s := { s with data_ready := drdy }
  let s := { s with mem := (initIdtCalls isr).foldl (GateCall.exec idt) s.mem }
  let s := { s with idtr := { base := idt, limit := 48 * 8 - 1 } }
  let s := { s with dev := remapPic dev s.dev }
  { s with enabled := true }

/-- The handler of a vector: exceptions with an error code have one of their own, and so have the
two disks. -/
def handlerOf (v : ℕ) : BitVec 32 :=
  if v < 32 then
    if v ∈ [8, 10, 11, 12, 13, 14, 17, 21, 29, 30] then isr.exception_err else isr.exception
  else if v < 40 then isr.irq_low
  else if v < 46 then isr.irq_high
  else if v = 46 then isr.irq_disk1
  else isr.irq_disk2

/-- The call for a vector. -/
def gateCall (v : ℕ) : GateCall :=
  ⟨BitVec.ofNat 8 v, 0x08, handlerOf isr v, if v < 32 then 0x8F else 0x8E⟩

theorem initIdtCalls_eq : initIdtCalls isr = (List.range 48).map (gateCall isr) := rfl

theorem gateCall_kind (v : ℕ) : gateKind (gateCall isr v).attr.toNat =
    some (if v < 32 then .trap else .interrupt) ∧ (gateCall isr v).attr.toNat / 32 % 4 = 0 := by
  have hattr : (gateCall isr v).attr = if v < 32 then 0x8F else 0x8E := rfl
  rw [hattr]
  split_ifs <;> decide

/-- Every entry in the end: no call undoes what another one did. -/
theorem initIdt_gate (idt : ℕ) (drdy : BitVec 32) (s : IdtState δ) {v : ℕ} (hv : v < 48) :
    gate32 (initIdt isr dev idt drdy s).mem (idt + 8 * v) =
      some (plainGate (handlerOf isr v) v) := by
  have hmem : (initIdt isr dev idt drdy s).mem =
      ((List.range 48).map (gateCall isr)).foldl (GateCall.exec idt) s.mem := by
    rw [← initIdtCalls_eq]
    rfl
  have hids : ((List.range 48).map (gateCall isr)).map (fun c => c.id.toNat) = List.range 48 := rfl
  have hid : (gateCall isr v).id.toNat = v := Nat.mod_eq_of_lt (by omega)
  obtain ⟨m₀, hagree⟩ := foldl_own (exec_ownEntry idt) (hids ▸ List.nodup_range)
    (List.mem_map_of_mem (List.mem_range.mpr hv)) s.mem
  obtain ⟨hkind, hdpl⟩ := gateCall_kind isr v
  have hgate := genEntry_gate idt m₀ (gateCall isr v).id (gateCall isr v).sel
    (gateCall isr v).offset (gateCall isr v).attr hkind
  rw [hdpl] at hgate
  rw [← hmem, hid] at hagree
  rw [hid] at hgate
  rw [gate32_congr hagree]
  exact hgate

/-- **The loader's vectors**: each goes to its handler, and there are no others. -/
theorem initIdt_vectors (idt : ℕ) (drdy : BitVec 32) (s : IdtState δ) (v : ℕ) :
    vector32 (initIdt isr dev idt drdy s).idtr (initIdt isr dev idt drdy s).mem v =
      if v < 48 then some (plainGate (handlerOf isr v) v) else none := by
  have hidtr : (initIdt isr dev idt drdy s).idtr = ⟨idt, 8 * 48 - 1⟩ := rfl
  rw [hidtr, vector32_of_limit (by norm_num)]
  by_cases hv : v < 48
  · rw [if_pos hv, if_pos hv, initIdt_gate isr dev idt drdy s hv]
  · rw [if_neg hv, if_neg hv]

end initIdt

end Ziemniak.Stage2
