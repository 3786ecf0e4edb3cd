import Mathlib.Order.Interval.Set.Nat
import Ziemniak.Kernel.MemoryMap

/-! # The sum of the free memory

`mm_init` adds up `end - base` over the free entries in 64-bit arithmetic.  The sum counts the
bytes of the entries when every entry is ordered; rounding inwards turns the ends of a region
around when no page boundary lies in it (`mmInit_freeMem_iff`). -/

namespace Ziemniak.Kernel

open BareMetal

/-! ### Unions over a list -/

/-- The sizes of disjoint finite sets add up to the size of their union. -/
theorem ncard_list_union {α β : Type} {f : α → Set β} (hfin : ∀ a, (f a).Finite) {l : List α}
    (hdisj : l.Pairwise (fun a b => Disjoint (f a) (f b))) :
    {x | ∃ a ∈ l, x ∈ f a}.Finite ∧
      {x | ∃ a ∈ l, x ∈ f a}.ncard = (l.map (fun a => (f a).ncard)).sum := by
  induction l with
  | nil => simp
  | cons a l ih =>
      obtain ⟨hhead, htail⟩ := List.pairwise_cons.mp hdisj
      obtain ⟨hf, hcard⟩ := ih htail
      have hsplit : {x | ∃ b ∈ a :: l, x ∈ f b} = f a ∪ {x | ∃ b ∈ l, x ∈ f b} := by
        ext x
        simp
      have hd : Disjoint (f a) {x | ∃ b ∈ l, x ∈ f b} := by
        rw [Set.disjoint_left]
        rintro x hx ⟨b, hb, hxb⟩
        exact Set.disjoint_left.mp (hhead b hb) hx hxb
      rw [hsplit, Set.ncard_union_eq hd (hfin a) hf, hcard, List.map_cons, List.sum_cons]
      exact ⟨(hfin a).union hf, rfl⟩

/-! ### The sum -/

/-- The bytes that an entry adds to the free memory. -/
def freeRange (e : Memmap) : Set ℕ :=
  if e.type = FREE_RAM ∧ 0x100000 ≤ e.base.toNat then Set.Ico e.base.toNat e.end_.toNat else ∅

theorem freeRange_finite (e : Memmap) : (freeRange e).Finite := by
  unfold freeRange
  split_ifs
  · exact Set.finite_Ico _ _
  · exact Set.finite_empty

theorem freeBytes_eq (map : List Memmap) : freeBytes map = {x | ∃ e ∈ map, x ∈ freeRange e} := by
  ext x
  unfold freeBytes
  simp only [Set.mem_ofPred_eq]
  refine exists_congr fun e => and_congr_right fun _ => ?_
  unfold freeRange
  by_cases h : e.type = FREE_RAM ∧ 0x100000 ≤ e.base.toNat
  · rw [if_pos h]
    exact ⟨fun hx => hx.2.2, fun hx => ⟨h.1, h.2, hx⟩⟩
  · rw [if_neg h]
    exact ⟨fun hx => h ⟨hx.1, hx.2.1⟩, fun hx => hx.elim⟩

/-- One round adds the bytes of its entry when they are ordered and the sum stays in range. -/
theorem mmInitStep_freeMem (load_buf load_size : BitVec 64) (s : MmInit) {e : Memmap}
    (hord : (initEntry load_buf load_size e).base.toNat ≤
      (initEntry load_buf load_size e).end_.toNat)
    (hsum : s.free_mem.toNat + (freeRange (initEntry load_buf load_size e)).ncard < 2 ^ 64) :
    (mmInitStep load_buf load_size s e).free_mem.toNat =
      s.free_mem.toNat + (freeRange (initEntry load_buf load_size e)).ncard := by
  obtain ⟨e', he'⟩ : ∃ e', e' = initEntry load_buf load_size e := ⟨_, rfl⟩
  unfold mmInitStep
  rw [← he'] at hord hsum ⊢
  have hmib : (0x100000 : BitVec 64) ≤ e'.base ↔ 0x100000 ≤ e'.base.toNat := BitVec.le_def
  unfold freeRange at hsum ⊢
  simp only [hmib]
  by_cases h : e'.type = FREE_RAM ∧ 0x100000 ≤ e'.base.toNat
  · simp only [if_pos h] at hsum ⊢
    have hsub : (e'.end_ - e'.base).toNat = e'.end_.toNat - e'.base.toNat :=
      BitVec.toNat_sub_of_le hord
    rw [Set.ncard_Ico_nat] at hsum ⊢
    rw [BitVec.toNat_add, hsub, Nat.mod_eq_of_lt hsum]
  · simp only [if_neg h, Set.ncard_empty, Nat.add_zero]

theorem foldl_freeMem (load_buf load_size : BitVec 64) (memmap : List Memmap) (s : MmInit)
    (hord : ∀ e ∈ memmap, (initEntry load_buf load_size e).base.toNat ≤
      (initEntry load_buf load_size e).end_.toNat)
    (hsum : s.free_mem.toNat + (memmap.map
      (fun e => (freeRange (initEntry load_buf load_size e)).ncard)).sum < 2 ^ 64) :
    (memmap.foldl (mmInitStep load_buf load_size) s).free_mem.toNat = s.free_mem.toNat +
      (memmap.map (fun e => (freeRange (initEntry load_buf load_size e)).ncard)).sum := by
  induction memmap generalizing s with
  | nil => rfl
  | cons e memmap ih =>
      rw [List.map_cons, List.sum_cons] at hsum ⊢
      have hstep := mmInitStep_freeMem load_buf load_size s (hord e List.mem_cons_self) (by omega)
      have hrest := ih (mmInitStep load_buf load_size s e)
        (fun e' he' => hord e' (List.mem_cons_of_mem e he')) (by omega)
      rw [List.foldl_cons, hrest, hstep, Nat.add_assoc]

/-! ### The result -/

/-- The bytes of a region before `mm_init`. -/
def Memmap.region (e : Memmap) : Set ℕ := Set.Ico e.base.toNat (e.base.toNat + e.len.toNat)

/-- Every entry is ordered, and the sum counts the bytes of the free ones. -/
def FreeMemExact (s : MmInit) : Prop :=
  (∀ e ∈ s.map, e.base.toNat ≤ e.end_.toNat) ∧ s.free_mem.toNat = (freeBytes s.map).ncard

section result

variable {memmap : List Memmap} {load_buf load_end : BitVec 64}

/-- When every entry stays ordered and inside its region, the sum is right. -/
theorem freeMemExact_of_ordered (peek_entry : Option PeekTable)
    (hdisj : memmap.Pairwise (fun a b => Disjoint a.region b.region))
    (hend : ∀ e ∈ memmap, e.base.toNat + e.len.toNat < 2 ^ 52)
    (hord : ∀ e ∈ memmap,
      e.base.toNat ≤ (initEntry load_buf (pageUp load_end - load_buf) e).base.toNat ∧
      (initEntry load_buf (pageUp load_end - load_buf) e).base.toNat ≤
        (initEntry load_buf (pageUp load_end - load_buf) e).end_.toNat ∧
      (initEntry load_buf (pageUp load_end - load_buf) e).end_.toNat ≤
        e.base.toNat + e.len.toNat) :
    FreeMemExact (mmInit peek_entry memmap load_buf load_end) := by
  obtain ⟨f, hf⟩ : ∃ f, f = initEntry load_buf (pageUp load_end - load_buf) := ⟨_, rfl⟩
  rw [← hf] at hord
  have hsub : ∀ e ∈ memmap, freeRange (f e) ⊆ e.region := by
    intro e he x hx
    obtain ⟨hlo, -, hhi⟩ := hord e he
    unfold freeRange at hx
    split_ifs at hx with hvalid
    · exact ⟨hlo.trans hx.1, hx.2.trans_le hhi⟩
    · exact hx.elim
  have hdisj' : (memmap.map f).Pairwise (fun a b => Disjoint (freeRange a) (freeRange b)) := by
    rw [List.pairwise_map]
    exact hdisj.imp_of_mem (fun ha hb hd => hd.mono (hsub _ ha) (hsub _ hb))
  obtain ⟨-, hcard⟩ := ncard_list_union freeRange_finite hdisj'
  have hlimit : (freeBytes (memmap.map f)).ncard ≤ 2 ^ 52 := by
    have hIco : freeBytes (memmap.map f) ⊆ Set.Ico 0 (2 ^ 52) := by
      rw [freeBytes_eq]
      rintro x ⟨e', he', hx⟩
      obtain ⟨e, he, rfl⟩ := List.mem_map.mp he'
      have hreg := hsub e he hx
      exact ⟨Nat.zero_le x, hreg.2.trans (hend e he)⟩
    have hle := Set.ncard_le_ncard hIco (Set.finite_Ico 0 (2 ^ 52))
    rw [Set.ncard_Ico_nat, Nat.sub_zero] at hle
    exact hle
  rw [freeBytes_eq, hcard, List.map_map] at hlimit
  have hfree := foldl_freeMem load_buf (pageUp load_end - load_buf) memmap
    { peek_pde := peek_entry } (fun e he => by rw [← hf]; exact (hord e he).2.1)
    (by
      rw [← hf]
      exact Nat.lt_of_le_of_lt (Nat.add_le_add (Nat.le_refl 0) hlimit) (by norm_num))
  rw [← hf] at hfree
  have hmap : (mmInit peek_entry memmap load_buf load_end).map = memmap.map f := by
    rw [mmInit_map, hf]
  constructor
  · intro e' he'
    rw [hmap] at he'
    obtain ⟨e, he, rfl⟩ := List.mem_map.mp he'
    exact (hord e he).2.1
  · rw [hmap, freeBytes_eq, hcard, List.map_map]
    exact hfree.trans (Nat.zero_add _)

/-- **The sum of the free memory** is exact, and every entry is ordered, exactly when every region
has a page boundary in it and no second region, the kernel not being empty, rounds up to where
the kernel was loaded. -/
theorem mmInit_freeMem_iff (peek_entry : Option PeekTable) {e₀ : Memmap}
    (hdisj : memmap.Pairwise (fun a b => Disjoint a.region b.region))
    (hend : ∀ e ∈ memmap, e.base.toNat + e.len.toNat < 2 ^ 52)
    (he₀ : e₀ ∈ memmap) (hbuf : load_buf = pageUp e₀.base)
    (hload : load_buf.toNat ≤ (pageUp load_end).toNat)
    (hin : (pageUp load_end).toNat ≤ e₀.base.toNat + e₀.len.toNat) :
    FreeMemExact (mmInit peek_entry memmap load_buf load_end) ↔
      (∀ e ∈ memmap, roundUp 4096 e.base.toNat ≤ roundDown 4096 (e.base.toNat + e.len.toNat)) ∧
        (load_buf.toNat < (pageUp load_end).toNat →
          ∀ e ∈ memmap, e ≠ e₀ → roundUp 4096 e.base.toNat ≠ load_buf.toNat) := by
  have hbuf' : load_buf.toNat = roundUp 4096 e₀.base.toNat := by
    have := hend e₀ he₀
    rw [hbuf, pageUp_toNat (by omega)]
  have hpage : (pageUp load_end).toNat = (load_end + 4095).toNat / 4096 * 4096 :=
    pageDown_toNat (load_end + 4095)
  have hsym : Std.Symm (fun a b : Memmap => Disjoint a.region b.region) :=
    { symm := fun _ _ hd => hd.symm }
  have hapart : ∀ e ∈ memmap, e ≠ e₀ →
      min (e.base.toNat + e.len.toNat) (e₀.base.toNat + e₀.len.toNat) ≤
        max e.base.toNat e₀.base.toNat :=
    fun e he hne => Set.Ico_disjoint_Ico.mp (hdisj.forall he he₀ hne)
  have hentry := fun e he => initEntry_toNat (e := e) load_buf load_end (hend e he).le
  rw [Stage2.roundUp_page] at hbuf'
  constructor
  · rintro ⟨hord, -⟩
    rw [mmInit_map] at hord
    have hord' : ∀ e ∈ memmap, (if roundUp 4096 e.base.toNat = load_buf.toNat then
        (pageUp load_end).toNat else roundUp 4096 e.base.toNat) ≤
          roundDown 4096 (e.base.toNat + e.len.toNat) := by
      intro e he
      have h := hord _ (List.mem_map_of_mem he)
      rw [(hentry e he).1, (hentry e he).2] at h
      exact h
    constructor
    · intro e he
      have h := hord' e he
      split_ifs at h with hround
      · omega
      · exact h
    · intro hne e he hother hround
      have h := hord' e he
      have hap := hapart e he hother
      rw [if_pos hround] at h
      rw [Stage2.roundUp_page] at hround
      unfold roundDown at h
      omega
  · rintro ⟨hpages, hother⟩
    apply freeMemExact_of_ordered peek_entry hdisj hend
    intro e he
    obtain ⟨hbase, hend'⟩ := hentry e he
    have hp := hpages e he
    rw [hbase, hend']
    unfold roundDown at hp ⊢
    by_cases hround : roundUp 4096 e.base.toNat = load_buf.toNat
    · rw [if_pos hround]
      rw [Stage2.roundUp_page] at hround hp
      by_cases hne : load_buf.toNat < (pageUp load_end).toNat
      · obtain rfl : e = e₀ := by
          by_contra h
          exact hother hne e he h hround
        omega
      · omega
    · rw [if_neg hround]
      rw [Stage2.roundUp_page] at hp ⊢
      omega

end result

/-- Six megabytes, the region of the kernel. -/
def kernelRegion : Memmap :=
  { base := 0x100000, len := 0x600000, type := FREE_RAM, attrs := 1 }

/-- The same, and a region of 1 KiB in the middle of a page. -/
def crampedMap : List Memmap :=
  [kernelRegion, { base := 0x900800, len := 0x400, type := FREE_RAM, attrs := 1 }]

theorem crampedMap_disjoint :
    crampedMap.Pairwise (fun a b => Disjoint a.region b.region) := by
  unfold crampedMap
  rw [List.pairwise_pair]
  exact Set.Ico_disjoint_Ico.mpr (by decide)

/-- The small region is left with its end before its base, and its entry takes a page from the
sum: `0x5FC000` bytes are free. -/
theorem mmInit_freeMem_cramped :
    crampedMap.Pairwise (fun a b => Disjoint a.region b.region) ∧
      (∀ e ∈ crampedMap, e.base.toNat + e.len.toNat < 2 ^ 52) ∧ kernelRegion ∈ crampedMap ∧
      pageUp kernelRegion.base = 0x100000 ∧ (pageUp 0x104000).toNat ≤ 0x700000 ∧
      (mmInit none crampedMap 0x100000 0x104000).free_mem = 0x5FB000 ∧
      ¬ FreeMemExact (mmInit none crampedMap 0x100000 0x104000) := by
  refine ⟨crampedMap_disjoint, by decide, by decide, rfl, by decide, rfl, ?_⟩
  rintro ⟨hord, -⟩
  have h := hord { base := 0x901000, len := 0x900000, type := FREE_RAM, attrs := 1 } (by decide)
  exact absurd h (by decide)

theorem mmInit_freeMem_iff_aligned :
    FreeMemExact (mmInit none [kernelRegion] 0x100000 0x104000) :=
  (mmInit_freeMem_iff none (List.pairwise_singleton _ kernelRegion) (by decide)
    (List.mem_singleton_self kernelRegion) rfl (by decide) (by decide)).mpr
      ⟨by decide, fun _ => by decide⟩

end Ziemniak.Kernel
