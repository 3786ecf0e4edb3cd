import Ziemniak.BareMetal.Memory
import Ziemniak.Stage2.Defs

/-! # The BIOS memory map

`e820` of `stub.asm`: the loop that asks the BIOS for the memory map and leaves the usable
entries at `MEMMAP_SEG`, from where `main` and the kernel read them.

The answers of the BIOS are a list of `Response`s, one for each `int 0x15`; registers that a
response does not name keep their values.  A call writes the response's bytes at `es:di`, over
whatever an entry that was skipped left there, so what a response says is read from the slot
after the call (`examined`). -/

namespace Ziemniak.Stage2

open BareMetal

/-- What one `int 0x15` returns: the carry flag, the registers and the bytes at `es:di`. -/
structure Response where
  carry : Bool
  eax : BitVec 32
  ebx : BitVec 32
  ecx : BitVec 32
  bytes : List (BitVec 8)

/-- The state of the loop: the number of entries, the offset of the next slot, the memory. -/
structure E820 where
  bp : BitVec 16
  di : BitVec 16
  mem : Mem

inductive E820Result
  | fail
  | done (s : E820)

/-- The signature `SMAP`. -/
def SMAP : BitVec 32 := 0x534D4150

/-- The address of `es:off`, with `es` at `MEMMAP_SEG`. -/
def esAddr (off : BitVec 16) : ℕ := MEMMAP_SEG.toNat * 16 + off.toNat

/-- `mov dword [es:di+20], 1` and `int 0x15`. -/
def int15 (s : E820) (r : Response) : Mem :=
  writeBytes (writeLE 4 s.mem (esAddr (s.di + 20)) 1) (esAddr s.di) r.bytes

/-- From the test of `cx` to `.skip`. -/
def examine (s : E820) (r : Response) : E820 :=
  let mem := int15 s r
  if r.ecx.setWidth 16 = 0#16 then { s with mem := mem }
  else if ¬ r.ecx ≤ 20 ∧ mem (esAddr (s.di + 20)) &&& 1 = 0 then { s with mem := mem }
  else if read32 mem (esAddr (s.di + 8)) + read32 mem (esAddr (s.di + 12)) = 0 then
    { s with mem := mem }
  else { bp := s.bp + 1, di := s.di + 24, mem := mem }

/-- From `.first` to the jump back; `loop` is the rest of the loop. -/
def first (loop : E820 → Option E820Result) (s : E820) (r : Response) : Option E820Result :=
  if r.eax ≠ SMAP then some .fail
  else if r.ebx ≠ 0 then loop (examine s r)
  else some (.done (examine s r))

/-- `.loop`; `none` when the BIOS gives no further answer. -/
def e820Loop : List Response → E820 → Option E820Result
  | [], _ => none
  | r :: rs, s => if r.carry then some (.done { s with mem := int15 s r })
      else first (e820Loop rs) s r

/-- `xor di, di` and `xor bp, bp`. -/
def start (m : Mem) : E820 := { bp := 0, di := 0, mem := m }

/-- The first call is different: its carry means failure. -/
def e820 (m : Mem) : List Response → Option E820Result
  | [] => none
  | r :: rs => if r.carry then some .fail else first (e820Loop rs) (start m) r

/-! ### What was asked and what was saved -/

/-- The entry of a memory map at an address. -/
def readMemMap (m : Mem) (a : ℕ) : MemMap where
  base := read64 m a
  len := read64 m (a + 8)
  type := read32 m (a + 16)
  attrs := read32 m (a + 20)

/-- The map of `n` entries at `MEMMAP_SEG`. -/
def savedMap (m : Mem) (n : ℕ) : List MemMap :=
  (List.range n).map (fun i => readMemMap m (MEMMAP_SEG.toNat * 16 + MEM_MAP_SIZE * i))

/-- A call whose answer is looked at: the returned size, the entry in the slot, and whether the
entry counts afterwards. -/
structure Call where
  ecx : BitVec 32
  entry : MemMap
  kept : Bool
deriving DecidableEq

def call (s : E820) (r : Response) : Call where
  ecx := r.ecx
  entry := readMemMap (int15 s r) (esAddr s.di)
  kept := (examine s r).bp != s.bp

/-- The calls up to the end of the map. -/
def examined : List Response → E820 → List Call
  | [], _ => []
  | r :: rs, s => if r.carry then [] else
      call s r :: if r.ebx ≠ 0 then examined rs (examine s r) else []

/-- A sequence of answers that ends the loop, every signature correct. -/
def Ended : List Response → Prop
  | [] => False
  | r :: rs => r.carry = true ∨ (r.eax = SMAP ∧ (r.ebx = 0 ∨ Ended rs))

/-- An entry was returned: the size `cx` is not zero, and an entry with attributes is valid. -/
def Call.Returned (c : Call) : Prop :=
  c.ecx.setWidth 16 ≠ 0#16 ∧ (c.ecx ≤ 20 ∨ c.entry.attrs.getLsbD 0 = true)

/-- **What belongs in the map**: an entry was returned, and it is not empty. -/
def Call.Usable (c : Call) : Prop := c.Returned ∧ c.entry.len ≠ 0

/-- What the loop keeps: the sum of the halves of the length is not zero. -/
def Call.Keeps (c : Call) : Prop :=
  c.Returned ∧ c.entry.len.setWidth 32 + (c.entry.len >>> 32).setWidth 32 ≠ 0#32

instance : DecidablePred Call.Returned := fun _ => inferInstanceAs (Decidable (_ ∧ _))
instance : DecidablePred Call.Usable := fun _ => inferInstanceAs (Decidable (_ ∧ _))
instance : DecidablePred Call.Keeps := fun _ => inferInstanceAs (Decidable (_ ∧ _))

/-- The saved map is the usable entries in order, `bp` is their number, and nothing but an empty
entry was dropped for its length. -/
def MapFaithful (calls : List Call) (s : E820) : Prop :=
  savedMap s.mem s.bp.toNat = (calls.filter Call.Usable).map Call.entry ∧
  s.bp.toNat = (calls.filter Call.Usable).length ∧
  ∀ c ∈ calls, c.Returned → c.kept = false → c.entry.len = 0

/-! ### One call -/

theorem esAddr_add {di : BitVec 16} {n : ℕ} (h : di.toNat + n < 2 ^ 16) :
    esAddr (di + BitVec.ofNat 16 n) = esAddr di + n := by
  rw [esAddr, toNat_add_ofNat h, esAddr]
  omega

theorem int15_apply {s : E820} {r : Response} (hdi : s.di.toNat + 24 < 2 ^ 16)
    (hr : r.bytes.length ≤ 24) {x : ℕ} (hx : x < esAddr s.di ∨ esAddr s.di + 24 ≤ x) :
    int15 s r x = s.mem x := by
  have h20 : esAddr (s.di + 20) = esAddr s.di + 20 := esAddr_add (n := 20) (by omega)
  unfold int15
  rw [writeBytes_of_not_mem (by omega), writeLE_of_not_mem (by omega)]

theorem readMemMap_congr {m m' : Mem} {a : ℕ} (h : ∀ x, a ≤ x → x < a + 24 → m x = m' x) :
    readMemMap m a = readMemMap m' a := by
  unfold readMemMap
  simp only [MemMap.mk.injEq]
  refine ⟨read64_congr ?_, read64_congr ?_, read32_congr ?_, read32_congr ?_⟩ <;>
    exact fun x hx hx' => h x (by omega) (by omega)

/-- The entry that a response writes into an empty slot. -/
def Response.entry (r : Response) : MemMap :=
  readMemMap (writeBytes (writeLE 4 (fun _ => 0) 20 1) 0 r.bytes) 0

/-- An answer of 20 bytes or more leaves nothing in its slot from the calls before. -/
theorem call_entry {s : E820} {r : Response} (hdi : s.di.toNat + 24 < 2 ^ 16)
    (h20 : 20 ≤ r.bytes.length) : (call s r).entry = r.entry := by
  have haddr : esAddr (s.di + 20) = esAddr s.di + 20 := esAddr_add (n := 20) (by omega)
  have hbyte : ∀ i < 24, int15 s r (esAddr s.di + i) =
      writeBytes (writeLE 4 (fun _ => 0) 20 1) 0 r.bytes (0 + i) := by
    intro i hi
    unfold int15
    rw [haddr]
    unfold writeBytes
    simp only [writeLE, Nat.zero_le, Nat.zero_add, Nat.sub_zero, true_and, Nat.le_add_right,
      Nat.add_lt_add_iff_left, Nat.add_sub_cancel_left]
    by_cases hlen : i < r.bytes.length
    · rw [if_pos hlen, if_pos hlen]
    · rw [if_neg hlen, if_neg hlen, if_pos (by omega), if_pos (by omega),
        Nat.add_sub_add_left]
  have hpart : ∀ n k, n + k ≤ 24 → readLE n (int15 s r) (esAddr s.di + k) =
      readLE n (writeBytes (writeLE 4 (fun _ => 0) 20 1) 0 r.bytes) (0 + k) := by
    intro n k hnk
    apply readLE_shift
    intro i hi
    rw [Nat.add_assoc, Nat.add_assoc]
    exact hbyte (k + i) (by omega)
  unfold Response.entry
  unfold call readMemMap read64 read32
  simp only [MemMap.mk.injEq]
  exact ⟨congrArg _ (hpart 8 0 (by omega)), congrArg _ (hpart 8 8 (by omega)),
    congrArg _ (hpart 4 16 (by omega)), congrArg _ (hpart 4 20 (by omega))⟩

/-- The tests of the loop read the entry in its slot. -/
theorem Call.keeps_iff {c : Call} {mem : Mem} {a : ℕ} (h : c.entry = readMemMap mem a) :
    c.Keeps ↔ (c.ecx.setWidth 16 ≠ 0#16 ∧ (c.ecx ≤ 20 ∨ ¬ mem (a + 20) &&& 1 = 0)) ∧
      read32 mem (a + 8) + read32 mem (a + 12) ≠ 0 := by
  have hlo : (read64 mem (a + 8)).setWidth 32 = read32 mem (a + 8) := by
    apply BitVec.eq_of_toNat_eq
    have := (read32 mem (a + 8)).isLt
    rw [BitVec.toNat_setWidth, read64_toNat]
    omega
  have hhi : (read64 mem (a + 8) >>> 32).setWidth 32 = read32 mem (a + 12) := by
    apply BitVec.eq_of_toNat_eq
    have := (read32 mem (a + 8)).isLt
    have := (read32 mem (a + 12)).isLt
    rw [BitVec.toNat_setWidth, BitVec.toNat_ushiftRight, read64_toNat, Nat.shiftRight_eq_div_pow,
      Nat.add_assoc a 8 4]
    omega
  have hattr : (read32 mem (a + 20)).getLsbD 0 = true ↔ ¬ mem (a + 20) &&& 1 = 0 := by
    have hb := read32_mod_two mem (a + 20)
    have h1 : (mem (a + 20) &&& 1).toNat = (mem (a + 20)).toNat % 2 := by
      rw [BitVec.toNat_and]
      exact Nat.and_one_is_mod _
    rw [← BitVec.toNat_inj, h1, BitVec.getLsbD, Nat.testBit_zero, decide_eq_true_iff, hb]
    simp
  unfold Call.Keeps Call.Returned
  rw [h]
  unfold readMemMap
  simp only [hlo, hhi, hattr]
  exact Iff.rfl

/-- One call: the next slot is taken exactly when the entry is kept. -/
theorem examine_eq {s : E820} {r : Response} (hdi : s.di.toNat + 24 < 2 ^ 16) :
    examine s r = if (call s r).Keeps then
      { bp := s.bp + 1, di := s.di + 24, mem := int15 s r } else { s with mem := int15 s r } := by
  have h8 : esAddr (s.di + 8) = esAddr s.di + 8 := esAddr_add (n := 8) (by omega)
  have h12 : esAddr (s.di + 12) = esAddr s.di + 12 := esAddr_add (n := 12) (by omega)
  have h20 : esAddr (s.di + 20) = esAddr s.di + 20 := esAddr_add (n := 20) (by omega)
  have hkeeps := Call.keeps_iff (c := call s r) rfl
  unfold examine
  rw [h8, h12, h20]
  by_cases hcx : r.ecx.setWidth 16 = 0#16
  · have hk : ¬ (call s r).Keeps := by
      intro h
      exact (hkeeps.mp h).1.1 hcx
    rw [if_pos hcx, if_neg hk]
  rw [if_neg hcx]
  by_cases hacpi : ¬ r.ecx ≤ 20 ∧ int15 s r (esAddr s.di + 20) &&& 1 = 0
  · have hk : ¬ (call s r).Keeps := by
      intro h
      cases (hkeeps.mp h).1.2 with
      | inl h => exact hacpi.1 h
      | inr h => exact h hacpi.2
    rw [if_pos hacpi, if_neg hk]
  rw [if_neg hacpi]
  by_cases hlen : read32 (int15 s r) (esAddr s.di + 8) + read32 (int15 s r) (esAddr s.di + 12) = 0
  · have hk : ¬ (call s r).Keeps := by
      intro h
      exact (hkeeps.mp h).2 hlen
    rw [if_pos hlen, if_neg hk]
  · have hsize : r.ecx ≤ 20 ∨ ¬ int15 s r (esAddr s.di + 20) &&& 1 = 0 := by
      rwa [not_and, ← or_iff_not_imp_left] at hacpi
    rw [if_neg hlen, if_pos (hkeeps.mpr ⟨⟨hcx, hsize⟩, hlen⟩)]

theorem call_kept {s : E820} {r : Response} (hdi : s.di.toNat + 24 < 2 ^ 16)
    (hbp : s.bp.toNat + 1 < 2 ^ 16) : (call s r).kept = true ↔ (call s r).Keeps := by
  have hbp' : (s.bp + 1).toNat = s.bp.toNat + 1 := toNat_add_ofNat (n := 1) hbp
  have hne : s.bp + 1 ≠ s.bp := by
    intro h
    rw [h] at hbp'
    omega
  have h : (call s r).kept = ((examine s r).bp != s.bp) := rfl
  rw [h, examine_eq hdi, bne_iff_ne]
  by_cases hk : (call s r).Keeps
  · rw [if_pos hk]
    exact iff_of_true hne hk
  · rw [if_neg hk]
    exact iff_of_false (fun h => h rfl) hk

theorem savedMap_succ (m : Mem) (n : ℕ) : savedMap m (n + 1) =
    savedMap m n ++ [readMemMap m (MEMMAP_SEG.toNat * 16 + MEM_MAP_SIZE * n)] := by
  unfold savedMap
  simp only [List.range_succ, List.map_append, List.map_cons, List.map_nil]

theorem savedMap_int15 {s : E820} {r : Response} (hdi : s.di.toNat = 24 * s.bp.toNat)
    (hbp : s.bp.toNat < 2730) (hr : r.bytes.length ≤ 24) :
    savedMap (int15 s r) s.bp.toNat = savedMap s.mem s.bp.toNat := by
  apply List.map_congr_left
  intro i hi
  apply readMemMap_congr
  intro x _ hx
  have hi' := List.mem_range.mp hi
  rw [int15_apply (by omega) hr]
  unfold MEM_MAP_SIZE at hx
  unfold esAddr
  omega

/-- **One round**: the map grows by the entry in the slot, or not at all. -/
theorem examine_saved {s : E820} {r : Response} (hdi : s.di.toNat = 24 * s.bp.toNat)
    (hbp : s.bp.toNat < 2730) (hr : r.bytes.length ≤ 24) :
    (examine s r).di.toNat = 24 * (examine s r).bp.toNat ∧
    (examine s r).bp.toNat = s.bp.toNat + ([call s r].filter Call.kept).length ∧
    savedMap (examine s r).mem (examine s r).bp.toNat =
      savedMap s.mem s.bp.toNat ++ ([call s r].filter Call.kept).map Call.entry := by
  have hslot := savedMap_int15 hdi hbp hr
  rw [examine_eq (by omega)]
  by_cases hk : (call s r).Keeps
  · have hkept : (call s r).kept = true := (call_kept (by omega) (by omega)).mpr hk
    have hbp' : (s.bp + 1).toNat = s.bp.toNat + 1 := toNat_add_ofNat (n := 1) (by omega)
    have hdi' : (s.di + 24).toNat = s.di.toNat + 24 := toNat_add_ofNat (n := 24) (by omega)
    have haddr : MEMMAP_SEG.toNat * 16 + MEM_MAP_SIZE * s.bp.toNat = esAddr s.di := by
      unfold esAddr
      rw [hdi, MEM_MAP_SIZE]
    rw [if_pos hk, List.filter_cons_of_pos hkept]
    refine ⟨by simp only [hbp', hdi']; omega, hbp', ?_⟩
    simp only [hbp', savedMap_succ, hslot, haddr]
    rfl
  · have hkept : ¬ (call s r).kept = true := by
      intro h
      exact hk ((call_kept (by omega) (by omega)).mp h)
    rw [if_neg hk, List.filter_cons_of_neg hkept]
    refine ⟨hdi, rfl, ?_⟩
    simp only [hslot, List.filter_nil, List.map_nil, List.append_nil]

/-! ### The whole map -/

/-- **The loop** saves the entries of the calls that count, in order. -/
theorem e820Loop_saved {rs : List Response} {s : E820} (hend : Ended rs)
    (hbytes : ∀ r ∈ rs, r.bytes.length ≤ 24) (hdi : s.di.toNat = 24 * s.bp.toNat)
    (hkept : s.bp.toNat + ((examined rs s).filter Call.kept).length < 2730) :
    ∃ s', e820Loop rs s = some (.done s') ∧
      s'.bp.toNat = s.bp.toNat + ((examined rs s).filter Call.kept).length ∧
      savedMap s'.mem s'.bp.toNat =
        savedMap s.mem s.bp.toNat ++ ((examined rs s).filter Call.kept).map Call.entry ∧
      ∀ c ∈ examined rs s, c.kept = true ↔ c.Keeps := by
  induction rs generalizing s with
  | nil => exact hend.elim
  | cons r rs ih =>
      have hr : r.bytes.length ≤ 24 := hbytes r List.mem_cons_self
      by_cases hc : r.carry = true
      · have hex : examined (r :: rs) s = [] := if_pos hc
        rw [hex] at hkept ⊢
        refine ⟨_, if_pos hc, rfl, ?_, fun c hc => absurd hc List.not_mem_nil⟩
        simpa using savedMap_int15 hdi (by simpa using hkept) hr
      obtain ⟨hsig, hrest⟩ := hend.resolve_left hc
      have hloop : e820Loop (r :: rs) s = first (e820Loop rs) s r := if_neg hc
      have hbp : s.bp.toNat < 2730 := by omega
      obtain ⟨hdi', hbp', hmap⟩ := examine_saved hdi hbp hr
      have hcall := call_kept (r := r) (s := s) (by omega) (by omega)
      rw [hloop, first, if_neg (not_not_intro hsig)]
      by_cases hb : r.ebx = 0
      · have hex : examined (r :: rs) s = [call s r] := by
          unfold examined
          rw [if_neg hc, if_neg (not_not_intro hb)]
        rw [hex, if_neg (not_not_intro hb)]
        refine ⟨_, rfl, hbp', hmap, ?_⟩
        intro c hc
        rw [List.mem_singleton.mp hc]
        exact hcall
      · have hex : examined (r :: rs) s = [call s r] ++ examined rs (examine s r) := by
          rw [examined, if_neg hc, if_pos hb]
          rfl
        rw [hex, List.filter_append, List.length_append] at hkept
        have hbytes' : ∀ r' ∈ rs, r'.bytes.length ≤ 24 := by
          intro r' h
          exact hbytes r' (List.mem_cons_of_mem _ h)
        obtain ⟨s', hs', hcnt, hsaved, hall⟩ :=
          ih (hrest.resolve_left hb) hbytes' hdi' (by omega)
        rw [hex, if_pos hb, List.filter_append, List.length_append, List.map_append,
          ← List.append_assoc, ← hmap]
        refine ⟨s', hs', by omega, hsaved, ?_⟩
        intro c hc
        cases List.mem_append.mp hc with
        | inl hc =>
            rw [List.mem_singleton.mp hc]
            exact hcall
        | inr hc => exact hall c hc

/-- The halves of a length cancel when it is not zero and they add up to `2 ^ 32`. -/
theorem Call.keeps_iff_usable {c : Call} : c.Keeps ↔
    c.Usable ∧ c.entry.len.toNat / 2 ^ 32 + c.entry.len.toNat % 2 ^ 32 ≠ 2 ^ 32 := by
  have hlt := c.entry.len.isLt
  have hsum : (c.entry.len.setWidth 32 + (c.entry.len >>> 32).setWidth 32).toNat =
      (c.entry.len.toNat % 2 ^ 32 + c.entry.len.toNat / 2 ^ 32) % 2 ^ 32 := by
    rw [BitVec.toNat_add, BitVec.toNat_setWidth, BitVec.toNat_setWidth, BitVec.toNat_ushiftRight,
      Nat.shiftRight_eq_div_pow, Nat.add_mod_mod]
  have hzero : c.entry.len = 0 ↔ c.entry.len.toNat = 0 := BitVec.toNat_inj.symm
  unfold Call.Keeps Call.Usable
  rw [← BitVec.toNat_inj.ne, hsum, and_assoc]
  apply and_congr_right
  intro _
  simp only [ne_eq, hzero, BitVec.toNat_ofNat, Nat.zero_mod]
  omega

/-- **The saved map**: it is faithful exactly when no entry that was returned has a length whose
two halves add up to `2 ^ 32`. -/
theorem e820_faithful_iff {m : Mem} {r : Response} {rs : List Response} (hfirst : r.carry = false)
    (hend : Ended (r :: rs)) (hbytes : ∀ r' ∈ r :: rs, r'.bytes.length ≤ 24)
    (hkept : ((examined (r :: rs) (start m)).filter Call.kept).length < 2730) :
    ∃ s, e820 m (r :: rs) = some (.done s) ∧
      (MapFaithful (examined (r :: rs) (start m)) s ↔
        ∀ c ∈ examined (r :: rs) (start m), c.Returned →
          c.entry.len.toNat / 2 ^ 32 + c.entry.len.toNat % 2 ^ 32 ≠ 2 ^ 32) := by
  have h0 : (start m).bp.toNat = 0 := rfl
  obtain ⟨s, hs, hcnt, hmap, hall⟩ := e820Loop_saved (s := start m) hend hbytes rfl
    (by rwa [h0, Nat.zero_add])
  have hrun : e820 m (r :: rs) = e820Loop (r :: rs) (start m) := by
    unfold e820
    simp only [e820Loop, hfirst]
    rfl
  refine ⟨s, hrun.trans hs, ?_⟩
  generalize examined (r :: rs) (start m) = calls at hcnt hmap hall
  constructor
  · rintro ⟨-, -, hdrop⟩ c hc hret hsum
    have hk : c.kept = false := by
      rw [Bool.eq_false_iff]
      intro hk
      exact (Call.keeps_iff_usable.mp ((hall c hc).mp hk)).2 hsum
    have h0 := congrArg BitVec.toNat (hdrop c hc hret hk)
    rw [h0] at hsum
    exact absurd hsum (by decide)
  · intro hsum
    have hkept : ∀ c ∈ calls, c.kept = decide c.Usable := by
      intro c hc
      rw [Bool.eq_iff_iff, hall c hc, decide_eq_true_iff, Call.keeps_iff_usable]
      exact and_iff_left_of_imp (fun hu => hsum c hc hu.1)
    have hfilter : calls.filter Call.kept = calls.filter Call.Usable := List.filter_congr hkept
    rw [hfilter] at hmap hcnt
    refine ⟨by simpa [h0, savedMap] using hmap, by simpa [h0] using hcnt, ?_⟩
    intro c hc hret hk
    by_contra hlen
    rw [hkept c hc, decide_eq_false_iff_not] at hk
    exact hk ⟨hret, hlen⟩

/-! ### A lost region -/

/-- The bytes of an entry of free memory. -/
def entryBytes (base len : ℕ) : List (BitVec 8) :=
  (List.range 24).map (fun i =>
    BitVec.ofNat 8 ((base + 2 ^ 64 * len + 2 ^ 128 + 2 ^ 160) / 256 ^ i))

/-- The only answer, for a region of `len` bytes at 1 MiB. -/
def oneResponse (len : ℕ) : Response where
  carry := false
  eax := SMAP
  ebx := 0
  ecx := 24
  bytes := entryBytes 0x100000 len

theorem ended_oneResponse (len : ℕ) : Ended [oneResponse len] := Or.inr ⟨rfl, Or.inl rfl⟩

/-- A region of `0x1FFFFFFFF` bytes is not in the map. -/
theorem e820_drops : Ended [oneResponse 0x1FFFFFFFF] ∧
    examined [oneResponse 0x1FFFFFFFF] (start fun _ => 0) =
      [{ ecx := 24, entry := { base := 0x100000, len := 0x1FFFFFFFF, type := 1, attrs := 1 },
         kept := false }] ∧
    ∃ s, e820 (fun _ => 0) [oneResponse 0x1FFFFFFFF] = some (.done s) ∧ s.bp = 0 ∧
      ¬ MapFaithful (examined [oneResponse 0x1FFFFFFFF] (start fun _ => 0)) s := by
  have hcall : call (start fun _ => 0) (oneResponse 0x1FFFFFFFF) =
      { ecx := 24, entry := { base := 0x100000, len := 0x1FFFFFFFF, type := 1, attrs := 1 },
        kept := false } := by decide
  have hex : examined [oneResponse 0x1FFFFFFFF] (start fun _ => 0) =
      [call (start fun _ => 0) (oneResponse 0x1FFFFFFFF)] := rfl
  have hbp : (examine (start fun _ => 0) (oneResponse 0x1FFFFFFFF)).bp = 0 := by decide
  refine ⟨ended_oneResponse _, by rw [hex, hcall], _, rfl, hbp, ?_⟩
  rw [hex, hcall]
  rintro ⟨-, hcnt, -⟩
  rw [hbp] at hcnt
  exact absurd hcnt (by decide)

/-- Low memory, an empty entry over the next slot, and the memory from 1 MiB on. -/
def threeResponses : List Response :=
  [{ oneResponse 0 with ebx := 1, bytes := entryBytes 0 0x9FC00 },
    { oneResponse 0 with ebx := 2 }, oneResponse 0x700000]

theorem e820_faithful_iff_three : ∃ s, e820 (fun _ => 0) threeResponses = some (.done s) ∧
    MapFaithful (examined threeResponses (start fun _ => 0)) s := by
  have hend : Ended threeResponses :=
    Or.inr ⟨rfl, Or.inr (Or.inr ⟨rfl, Or.inr (ended_oneResponse _)⟩)⟩
  obtain ⟨s, hs, hiff⟩ := e820_faithful_iff (m := fun _ => 0) rfl hend (by decide)
    (by decide +kernel)
  exact ⟨s, hs, hiff.mpr (by decide +kernel)⟩

end Ziemniak.Stage2
