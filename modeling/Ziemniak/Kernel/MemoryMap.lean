import Ziemniak.Kernel.Defs
import Ziemniak.Stage2.Mapping
import Mathlib.Data.List.Pairwise

/-! # The memory map of the kernel

`mm_init` rounds the memory map to pages and cuts the loaded kernel out of it.  The map is the
one the loader placed the kernel with; the kernel finds its own region again by the rounded base
alone, and `mmInit_free` says that this is enough: the entries end up describing the usable
memory without the pages of the image. -/

namespace Ziemniak.Kernel

open BareMetal

/-! ### Initialisation -/

/-- What `mm_init` leaves: its table pointer, `NULL` or a table, and what its loop computed. -/
structure MmInit where
  peek_pde : Option PeekTable
  map : List Memmap := []
  valid_cnt : BitVec 64 := 0
  free_mem : BitVec 64 := 0
  max : BitVec 64 := 0

/-- The new end and base of an entry. -/
def initEntry (load_buf load_size : BitVec 64) (e : Memmap) : Memmap :=
  let base := pageUp e.base
  { e with
    base := if base = load_buf then base + load_size else base
    len := pageDown (e.base + e.len) }

/-- One round of `mm_init`. -/
def mmInitStep (load_buf load_size : BitVec 64) (s : MmInit) (e : Memmap) : MmInit :=
  let e := initEntry load_buf load_size e
  let valid := e.type = FREE_RAM ∧ 0x100000 ≤ e.base
  { s with
    map := s.map ++ [e]
    valid_cnt := if valid then s.valid_cnt + 1 else s.valid_cnt
    free_mem := if valid then s.free_mem + (e.end_ - e.base) else s.free_mem
    max := if s.max < e.end_ then e.end_ else s.max }

/-- `mm_init`; its `max` is what the allocator is asked about. -/
def mmInit (peek_entry : Option PeekTable) (memmap : List Memmap) (load_buf load_end : BitVec 64) :
    MmInit :=
  let load_end := pageUp load_end
  memmap.foldl (mmInitStep load_buf (load_end - load_buf)) { peek_pde := peek_entry }

theorem foldl_mmInitStep (load_buf load_size : BitVec 64) (memmap : List Memmap) (s : MmInit) :
    (memmap.foldl (mmInitStep load_buf load_size) s).map =
        s.map ++ memmap.map (initEntry load_buf load_size) ∧
      s.max ≤ (memmap.foldl (mmInitStep load_buf load_size) s).max ∧
      ∀ e ∈ memmap, (initEntry load_buf load_size e).end_ ≤
        (memmap.foldl (mmInitStep load_buf load_size) s).max := by
  induction memmap generalizing s with
  | nil => simp
  | cons e memmap ih =>
      obtain ⟨hmap, hmax, hall⟩ := ih (mmInitStep load_buf load_size s e)
      have hstep : s.max ≤ (mmInitStep load_buf load_size s e).max ∧
          (initEntry load_buf load_size e).end_ ≤ (mmInitStep load_buf load_size s e).max := by
        unfold mmInitStep
        simp only
        split_ifs with h
        · exact ⟨BitVec.le_of_lt h, BitVec.le_refl _⟩
        · exact ⟨BitVec.le_refl _, BitVec.not_lt.mp h⟩
      rw [List.foldl_cons]
      refine ⟨?_, BitVec.le_trans hstep.1 hmax, ?_⟩
      · rw [hmap]
        simp [mmInitStep]
      · intro e' he'
        cases List.mem_cons.mp he' with
        | inl heq =>
            subst heq
            exact BitVec.le_trans hstep.2 hmax
        | inr he' => exact hall e' he'

section result

variable (peek_entry : Option PeekTable) (memmap : List Memmap) (load_buf load_end : BitVec 64)

theorem mmInit_map : (mmInit peek_entry memmap load_buf load_end).map =
    memmap.map (initEntry load_buf (pageUp load_end - load_buf)) := by
  have h := (foldl_mmInitStep load_buf (pageUp load_end - load_buf) memmap
    { peek_pde := peek_entry }).1
  exact h.trans (List.nil_append _)

/-- The allocator is asked about an address that no entry passes. -/
theorem mmInit_max : ∀ e ∈ (mmInit peek_entry memmap load_buf load_end).map,
    e.end_ ≤ (mmInit peek_entry memmap load_buf load_end).max := by
  intro e he
  rw [mmInit_map] at he
  obtain ⟨e', he', rfl⟩ := List.mem_map.mp he
  exact (foldl_mmInitStep load_buf (pageUp load_end - load_buf) memmap
    { peek_pde := peek_entry }).2.2 e' he'

end result

/-! ### What is free -/

/-- The kernel reads the entry that the loader saved. -/
def Memmap.ofLoader (e : Stage2.MemMap) : Memmap :=
  { base := e.base, len := e.len, type := e.type, attrs := e.attrs }

/-- The bytes of the free entries from 1 MiB on. -/
def freeBytes (map : List Memmap) : Set ℕ :=
  {x | ∃ e ∈ map, e.type = FREE_RAM ∧ 0x100000 ≤ e.base.toNat ∧
    x ∈ Set.Ico e.base.toNat e.end_.toNat}

/-- The bytes of the whole pages of free memory from 1 MiB on. -/
def usableBytes (mem_map : List Stage2.MemMap) : Set ℕ :=
  {x | ∃ e ∈ mem_map, e.type = Stage2.FREE_RAM ∧ 0x100000 ≤ roundUp 4096 e.base.toNat ∧
    x ∈ Set.Ico (roundUp 4096 e.base.toNat) (roundDown 4096 (e.base.toNat + e.len.toNat))}

/-- The bytes of an entry before any rounding. -/
def regionBytes (e : Stage2.MemMap) : Set ℕ :=
  Set.Ico e.base.toNat (e.base.toNat + e.len.toNat)

/-- The entry whose rounded base is the load address starts after the image; every other entry
is rounded only. -/
theorem initEntry_toNat {e : Memmap} (load_buf load_end : BitVec 64)
    (hend : e.base.toNat + e.len.toNat ≤ 2 ^ 52) :
    (initEntry load_buf (pageUp load_end - load_buf) e).base.toNat =
        (if roundUp 4096 e.base.toNat = load_buf.toNat then (pageUp load_end).toNat
          else roundUp 4096 e.base.toNat) ∧
      (initEntry load_buf (pageUp load_end - load_buf) e).end_.toNat =
        roundDown 4096 (e.base.toNat + e.len.toNat) := by
  have hup : (pageUp e.base).toNat = roundUp 4096 e.base.toNat := pageUp_toNat (by omega)
  have hsum : (e.base + e.len).toNat = e.base.toNat + e.len.toNat := by
    rw [BitVec.toNat_add, Nat.mod_eq_of_lt (by omega)]
  constructor
  · have hbase : (initEntry load_buf (pageUp load_end - load_buf) e).base =
        if pageUp e.base = load_buf then pageUp e.base + (pageUp load_end - load_buf)
        else pageUp e.base := rfl
    have hiff : roundUp 4096 e.base.toNat = load_buf.toNat ↔ pageUp e.base = load_buf := by
      rw [← hup, BitVec.toNat_inj]
    rw [hbase]
    simp only [hiff]
    split_ifs with heq
    · rw [heq, BitVec.add_comm, BitVec.sub_add_cancel]
    · exact hup
  · have hends : (initEntry load_buf (pageUp load_end - load_buf) e).end_ =
        pageDown (e.base + e.len) := rfl
    rw [hends, pageDown_toNat, hsum]

/-- **One entry**: rounding and cutting leave exactly its whole pages outside the image. -/
theorem mem_initEntry {mem_map : List Stage2.MemMap} {h : Stage2.KernelHeader} {lay : Stage2.Layout}
    (hdisj : mem_map.Pairwise (fun a b => Disjoint (regionBytes a) (regionBytes b)))
    (hmap : ∀ e ∈ mem_map, e.base.toNat + e.len.toNat ≤ 2 ^ 52)
    (hs : (Stage2.imageSize h).toNat + h.stack_size.toNat + 12 * 4096 < 2 ^ 32)
    (ha : Stage2.allocate mem_map h = some lay) {e : Stage2.MemMap} (he : e ∈ mem_map) {e' : Memmap}
    (he' : e' = initEntry lay.load_buf (pageUp lay.buf - lay.load_buf) (.ofLoader e)) (x : ℕ) :
    0x100000 ≤ e'.base.toNat ∧ x ∈ Set.Ico e'.base.toNat e'.end_.toNat ↔
      (0x100000 ≤ roundUp 4096 e.base.toNat ∧
        x ∈ Set.Ico (roundUp 4096 e.base.toNat) (roundDown 4096 (e.base.toNat + e.len.toNat))) ∧
      x ∉ Set.Ico lay.load_buf.toNat (roundUp 4096 lay.buf.toNat) := by
  obtain ⟨e₀, hf, hlb, hp, hlo, hhi⟩ := Stage2.allocate_placed hmap hs ha
  obtain ⟨he₀, -, hmib, -⟩ := Stage2.firstFit_fits hf
  have hend₀ := hmap e₀ he₀
  have hbuf : lay.buf.toNat + 4095 < 2 ^ 64 := by omega
  obtain ⟨hbase, hend⟩ : e'.base.toNat = (if roundUp 4096 e.base.toNat = lay.load_buf.toNat then
      (pageUp lay.buf).toNat else roundUp 4096 e.base.toNat) ∧
      e'.end_.toNat = roundDown 4096 (e.base.toNat + e.len.toNat) := by
    rw [he']
    exact initEntry_toNat (e := .ofLoader e) lay.load_buf lay.buf (hmap e he)
  have hlen : lay.load_buf.toNat + 40960 ≤ lay.buf.toNat := by
    have := hp.pages_eq
    have := hp.stack_eq
    have := hp.buf_eq
    omega
  have hsym : Std.Symm (fun a b : Stage2.MemMap => Disjoint (regionBytes a) (regionBytes b)) :=
    { symm := fun _ _ hd => hd.symm }
  have hcase : e = e₀ ∨ min (e.base.toNat + e.len.toNat) (e₀.base.toNat + e₀.len.toNat) ≤
      max e.base.toNat e₀.base.toNat := by
    by_cases heq : e = e₀
    · exact Or.inl heq
    · exact Or.inr (Set.Ico_disjoint_Ico.mp (hdisj.forall he he₀ heq))
  rw [hbase, hend, pageUp_toNat hbuf]
  rw [Stage2.roundUp_page] at hlb
  by_cases hfound : roundUp 4096 e.base.toNat = lay.load_buf.toNat
  · rw [if_pos hfound]
    simp only [Set.mem_Ico, Stage2.roundUp_page, roundDown] at hfound ⊢
    cases hcase with
    | inl heq =>
        subst heq
        omega
    | inr hcase =>
        omega
  · rw [if_neg hfound]
    simp only [Set.mem_Ico, Stage2.roundUp_page, roundDown] at hfound ⊢
    cases hcase with
    | inl heq =>
        subst heq
        exact absurd hlb.symm hfound
    | inr hcase => omega

/-- **What is left free** is the usable memory without the pages of the loaded kernel, and the
allocator is asked about an address at or above the end of all of it. -/
theorem mmInit_free {mem_map : List Stage2.MemMap} {h : Stage2.KernelHeader} {lay : Stage2.Layout}
    (hdisj : mem_map.Pairwise (fun a b => Disjoint (regionBytes a) (regionBytes b)))
    (hmap : ∀ e ∈ mem_map, e.base.toNat + e.len.toNat < 2 ^ 52)
    (hs : (Stage2.imageSize h).toNat + h.stack_size.toNat + 12 * 4096 < 2 ^ 32)
    (ha : Stage2.allocate mem_map h = some lay) {peek_entry : Option PeekTable} {s : MmInit}
    (hinit : s = mmInit peek_entry (mem_map.map .ofLoader) lay.load_buf lay.buf) :
    freeBytes s.map = usableBytes mem_map \
        Set.Ico lay.load_buf.toNat (roundUp 4096 lay.buf.toNat) ∧
      ∀ e ∈ s.map, e.type = FREE_RAM → 0x100000 ≤ e.base.toNat → e.end_.toNat ≤ s.max.toNat := by
  have hmap' : ∀ e ∈ mem_map, e.base.toNat + e.len.toNat ≤ 2 ^ 52 := by
    intro e he
    exact (hmap e he).le
  subst hinit
  refine ⟨?_, fun e he _ _ => mmInit_max _ _ _ _ e he⟩
  rw [mmInit_map, List.map_map]
  ext x
  constructor
  · rintro ⟨e', he', htype, hx⟩
    obtain ⟨e, he, rfl⟩ := List.mem_map.mp he'
    obtain ⟨hin, hout⟩ := (mem_initEntry hdisj hmap' hs ha he rfl x).mp hx
    exact ⟨⟨e, he, htype, hin⟩, hout⟩
  · rintro ⟨⟨e, he, htype, hin⟩, hout⟩
    exact ⟨_, List.mem_map_of_mem he, htype,
      (mem_initEntry hdisj hmap' hs ha he rfl x).mpr ⟨hin, hout⟩⟩

theorem pcMap_disjoint :
    Stage2.pcMap.Pairwise (fun a b => Disjoint (regionBytes a) (regionBytes b)) := by
  have hdisj : ∀ {a b : Stage2.MemMap}, a.base.toNat + a.len.toNat ≤ b.base.toNat →
      Disjoint (regionBytes a) (regionBytes b) := fun h => Set.Ico_disjoint_Ico.mpr (by omega)
  have hordered : Stage2.pcMap.Pairwise
      (fun a b => a.base.toNat + a.len.toNat ≤ b.base.toNat) := by decide
  exact hordered.imp hdisj

/-- A machine with holes in its memory and a kernel of three pages. -/
theorem mmInit_free_pcMap : freeBytes (mmInit none (Stage2.pcMap.map .ofLoader) 0x200000
      0x211000).map = usableBytes Stage2.pcMap \ Set.Ico 0x200000 0x211000 :=
  (mmInit_free (h := Stage2.smallKernel) pcMap_disjoint (by decide) (by decide)
    Stage2.allocate_pcMap rfl).1

end Ziemniak.Kernel
