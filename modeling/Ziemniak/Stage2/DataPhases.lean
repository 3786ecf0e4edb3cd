import Ziemniak.Stage2.Drive
import Ziemniak.Stage2.BootRuns

/-! # The byte count of a data phase

`cdrom_read_sector` takes the length of the transfer from two registers of the drive, once, and
does not check it: it halves it, reads that many words and then waits for the status to become
idle.  A drive may present any 16-bit count, and may hand over a sector in several data phases
of fewer bytes each.

`Offers` lists the phases a drive would hand over to a driver that takes them all.
`storesSector_iff` says for which drives what `cdrom_read_sector` stores is right. -/

namespace Ziemniak.Stage2

open BareMetal

section phases

variable {δ : Type} (dev : Device δ)

/-! ### The two halves of a call -/

/-- `cdromReadSector` up to the registers with the byte count; `false` when the drive refused. -/
def awaitData (fuel : ℕ) (cd : Cdrom) (lba : BitVec 32) (d : δ) : Option (Bool × δ) := do
  let d := startPacket dev cd d
  let (_, d) ← dev.poll fuel (cd.io_port + 0x07) (fun sts => sts &&& 0x80 != 0) d
  let (sts, d) ← dev.poll fuel (cd.io_port + 0x07)
    (fun sts => sts &&& 0x8 == 0 && sts &&& 0x1 == 0) d
  if sts &&& 0x01 ≠ 0 then
    return (false, d)
  let d := dev.outsw cd.io_port (readCmd lba) d
  let (_, d) ← dev.awaitFlag fuel d
  return (true, d)

/-- The byte count the drive presents, and the state behind the two reads. -/
def byteCount (cd : Cdrom) (d : δ) : BitVec 16 × δ :=
  let high := dev.inb (cd.io_port + 0x05) d
  let low := dev.inb (cd.io_port + 0x04) high.2
  (registerPair high.1 low.1, low.2)

/-- The words that are stored, and the state behind them. -/
def dataWords (cd : Cdrom) (d : δ) : List (BitVec 16) × δ :=
  dev.insw cd.io_port ((byteCount dev cd d).1.toNat / 2) (byteCount dev cd d).2

/-- The rest of the call. -/
def takeData (fuel : ℕ) (cd : Cdrom) (d : δ) : Option (Reply × δ) := do
  let (_, d') ← dev.poll fuel (cd.io_port + 0x07) (fun sts => sts &&& 0x88 != 0)
    (dataWords dev cd d).2
  return ({ rd_size := (byteCount dev cd d).1, words := (dataWords dev cd d).1 }, d')

theorem cdromReadSector_eq (fuel : ℕ) (cd : Cdrom) (lba : BitVec 32) (d : δ) :
    cdromReadSector dev fuel cd lba d = (awaitData dev fuel cd lba d).bind (fun r =>
      if r.1 then takeData dev fuel cd r.2 else some ({ rd_size := 0, words := [] }, r.2)) := by
  unfold cdromReadSector awaitData
  simp only [Option.bind_eq_bind, Option.bind_assoc]
  congr 1
  funext a
  congr 1
  funext b
  split_ifs
  · rfl
  · rw [Option.bind_assoc]
    rfl

theorem awaitData_mono {n k : ℕ} (hnk : n ≤ k) {cd : Cdrom} {lba : BitVec 32} {d : δ}
    {r : Bool × δ} (h : awaitData dev n cd lba d = some r) : awaitData dev k cd lba d = some r := by
  unfold awaitData at h ⊢
  simp only [Option.bind_eq_bind, Option.bind_eq_some_iff, Option.pure_def] at h ⊢
  obtain ⟨a, ha, b, hb, h⟩ := h
  refine ⟨a, whileLoop_mono hnk ha, b, whileLoop_mono hnk hb, ?_⟩
  split_ifs at h ⊢ with herr
  · exact h
  · obtain ⟨e, he, h⟩ := Option.bind_eq_some_iff.mp h
    exact Option.bind_eq_some_iff.mpr ⟨e, whileLoop_mono hnk he, h⟩

theorem dataWords_length (cd : Cdrom) (d : δ) :
    (dataWords dev cd d).1.length = (byteCount dev cd d).1.toNat / 2 := dev.insw_length _ _ _

/-! ### What a drive hands over -/

/-- The driver waits: it reads the status or looks for interrupts. -/
inductive Waits (cd : Cdrom) : δ → δ → Prop
  | done (d : δ) : Waits cd d d
  | status {d d' : δ} (rest : Waits cd (dev.inb (cd.io_port + 0x07) d).2 d') : Waits cd d d'
  | irq {d d' : δ} (rest : Waits cd (dev.irq d).2 d') : Waits cd d d'

/-- The byte counts of the data phases from a state on, for a driver that takes each and then
waits for the status to ask for the next. -/
inductive Offers (cd : Cdrom) : δ → List ℕ → Prop
  | last (d : δ) : Offers cd d [(byteCount dev cd d).1.toNat]
  | more {d d' : δ} {l : List ℕ} (wait : Waits dev cd (dataWords dev cd d).2 d')
      (drq : (dev.inb (cd.io_port + 0x07) d').1 &&& 0x88 = 0x08)
      (rest : Offers cd (dev.inb (cd.io_port + 0x07) d').2 l) :
      Offers cd d ((byteCount dev cd d).1.toNat :: l)

/-- A sector in several phases. -/
def SplitsSector (l : List ℕ) : Prop :=
  l.sum = CD_SECTOR_SIZE ∧ ∀ c ∈ l, 0 < c ∧ c < CD_SECTOR_SIZE

/-- The status becomes idle behind the words the driver has taken. -/
def Idles (cd : Cdrom) (d : δ) : Prop :=
  ∃ fuel r, dev.poll fuel (cd.io_port + 0x07) (fun sts => sts &&& 0x88 != 0)
    (dataWords dev cd d).2 = some r

/-- What a call stores is right: never more than a sector, whether or not the call returns; as
much as it returns; and the whole sector when the drive splits it. -/
structure StoresSector (cd : Cdrom) (lba : BitVec 32) (d : δ) : Prop where
  bound : ∀ fuel e, awaitData dev fuel cd lba d = some (true, e) →
    2 * (dataWords dev cd e).1.length ≤ CD_SECTOR_SIZE
  returned : ∀ fuel r d', cdromReadSector dev fuel cd lba d = some (r, d') → r.rd_size ≠ 0 →
    2 * r.words.length = r.rd_size.toNat
  phases : ∀ fuel r d' e l, cdromReadSector dev fuel cd lba d = some (r, d') →
    awaitData dev fuel cd lba d = some (true, e) → Offers dev cd e l → SplitsSector l →
    2 * r.words.length = CD_SECTOR_SIZE

/-- The drive refuses, or presents a count of at most one byte more than a sector; and, when its
status becomes idle, the count is even and was not the first of several phases. -/
def PresentsSector (cd : Cdrom) (lba : BitVec 32) (d : δ) : Prop :=
  ∀ fuel e, awaitData dev fuel cd lba d = some (true, e) →
    (byteCount dev cd e).1.toNat ≤ CD_SECTOR_SIZE + 1 ∧
    (Idles dev cd e → 2 ∣ (byteCount dev cd e).1.toNat ∧
      ∀ l, Offers dev cd e l → ¬ SplitsSector l)

section call

variable {dev} {cd : Cdrom} {lba : BitVec 32} {d e : δ}

theorem Offers.first_lt {l : List ℕ} (h : Offers dev cd e l) (hs : SplitsSector l) :
    (byteCount dev cd e).1.toNat < CD_SECTOR_SIZE := by
  cases h with
  | last => exact (hs.2 _ (List.mem_singleton_self _)).2
  | more => exact (hs.2 _ List.mem_cons_self).2

/-- A call that returns was refused, or took the data of an idle drive. -/
theorem cdromReadSector_some {fuel : ℕ} {r : Reply} {d' : δ}
    (h : cdromReadSector dev fuel cd lba d = some (r, d')) :
    r = { rd_size := 0, words := [] } ∧ awaitData dev fuel cd lba d = some (false, d') ∨
    ∃ e, awaitData dev fuel cd lba d = some (true, e) ∧ Idles dev cd e ∧
      r = { rd_size := (byteCount dev cd e).1, words := (dataWords dev cd e).1 } := by
  rw [cdromReadSector_eq] at h
  obtain ⟨⟨ready, e⟩, hawait, h⟩ := Option.bind_eq_some_iff.mp h
  cases ready with
  | false =>
      obtain ⟨rfl, rfl⟩ := Prod.mk.inj (Option.some.inj h)
      exact Or.inl ⟨rfl, hawait⟩
  | true =>
      obtain ⟨p, hp, h⟩ := Option.bind_eq_some_iff.mp h
      obtain ⟨rfl, -⟩ := Prod.mk.inj (Option.some.inj h)
      exact Or.inr ⟨e, hawait, ⟨fuel, p, hp⟩, rfl⟩

theorem cdromReadSector_of_idles {fuel : ℕ} (hawait : awaitData dev fuel cd lba d = some (true, e))
    (hidle : Idles dev cd e) : ∃ n d', awaitData dev n cd lba d = some (true, e) ∧
      cdromReadSector dev n cd lba d =
        some ({ rd_size := (byteCount dev cd e).1, words := (dataWords dev cd e).1 }, d') := by
  obtain ⟨k, ⟨sts, d'⟩, hk⟩ := hidle
  have hawait' := awaitData_mono dev (le_max_left fuel k) hawait
  have hpoll : dev.poll (max fuel k) (cd.io_port + 0x07) (fun sts => sts &&& 0x88 != 0)
      (dataWords dev cd e).2 = some (sts, d') := whileLoop_mono (le_max_right fuel k) hk
  refine ⟨max fuel k, d', hawait', ?_⟩
  rw [cdromReadSector_eq, hawait', Option.bind_some, if_pos rfl, takeData, hpoll]
  rfl

end call

section iff

variable {dev} {cd : Cdrom} {lba : BitVec 32} {d : δ}

theorem StoresSector.presents (h : StoresSector dev cd lba d) : PresentsSector dev cd lba d := by
  intro fuel e hawait
  have hlen := dataWords_length dev cd e
  have hbound := h.bound fuel e hawait
  refine ⟨by omega, ?_⟩
  intro hidle
  obtain ⟨n, d', hawait', hret⟩ := cdromReadSector_of_idles hawait hidle
  constructor
  · by_cases hz : (byteCount dev cd e).1 = 0
    · rw [hz]
      exact Nat.dvd_zero 2
    · have hsize := h.returned n _ d' hret hz
      simp only at hsize
      omega
  · intro l hl hs
    have hfirst := hl.first_lt hs
    have hall := h.phases n _ d' e l hret hawait' hl hs
    simp only at hall
    omega

theorem PresentsSector.stores (h : PresentsSector dev cd lba d) : StoresSector dev cd lba d where
  bound := by
    intro fuel e hawait
    have hlen := dataWords_length dev cd e
    have hcount := (h fuel e hawait).1
    unfold CD_SECTOR_SIZE at hcount ⊢
    omega
  returned := by
    intro fuel r d' hret hne
    rcases cdromReadSector_some hret with ⟨rfl, -⟩ | ⟨e, hawait, hidle, rfl⟩
    · exact absurd rfl hne
    · have hlen := dataWords_length dev cd e
      have heven := ((h fuel e hawait).2 hidle).1
      simp only
      omega
  phases := by
    intro fuel r d' e l hret hawait hl hs
    rcases cdromReadSector_some hret with ⟨-, hrefused⟩ | ⟨e', hawait', hidle, -⟩
    · rw [hawait] at hrefused
      cases hrefused
    · rw [hawait] at hawait'
      obtain ⟨-, rfl⟩ := Prod.mk.inj (Option.some.inj hawait')
      exact absurd hs (((h fuel e hawait).2 hidle).2 l hl)

end iff

/-- **The byte count.**  What a call stores is right for exactly the drives that present a sector
in one even count. -/
theorem storesSector_iff (cd : Cdrom) (lba : BitVec 32) (d : δ) :
    StoresSector dev cd lba d ↔ PresentsSector dev cd lba d :=
  ⟨StoresSector.presents, PresentsSector.stores⟩

end phases

/-! ### Drives with several phases -/

/-- The counts of the phases still to come, and whether data wait to be taken. -/
structure PhasedDrive where
  counts : List (BitVec 16)
  drq : Bool
deriving DecidableEq, Repr

/-- A drive that hands over its data in the given phases; an idle status lies between two. -/
def phasedDrive (io_port : BitVec 16) : Device PhasedDrive where
  inb port s :=
    if port = io_port + 0x07 then
      if s.drq then (0x48, s) else (0x40, { s with drq := !s.counts.isEmpty })
    else if port = io_port + 0x05 then (((s.counts.headD 0) >>> 8).setWidth 8, s)
    else if port = io_port + 0x04 then ((s.counts.headD 0).setWidth 8, s)
    else (0x40, s)
  outb _ _ s := { s with drq := true }
  insw _ n s := (List.replicate n 0, { counts := s.counts.tail, drq := false })
  outsw _ _ s := { s with drq := true }
  irq s := (0x02, s)
  insw_length _ n _ := by simp

/-- A block of two sectors overruns the buffer; of two phases of half a sector each only the
first is taken. -/
theorem readSector_phased :
    ¬ StoresSector (phasedDrive 0x170) plainCdrom 16 { counts := [4096], drq := false } ∧
    ¬ StoresSector (phasedDrive 0x170) plainCdrom 16
      { counts := [1024, 1024], drq := false } := by
  constructor
  · intro h
    have hawait : awaitData (phasedDrive 0x170) 1 plainCdrom 16
        { counts := [4096], drq := false } = some (true, { counts := [4096], drq := true }) := by
      decide
    exact absurd (h.presents 1 _ hawait).1 (by decide)
  · intro h
    have hawait : awaitData (phasedDrive 0x170) 1 plainCdrom 16
        { counts := [1024, 1024], drq := false } =
        some (true, { counts := [1024, 1024], drq := true }) := by decide
    have hidle : Idles (phasedDrive 0x170) plainCdrom { counts := [1024, 1024], drq := true } :=
      ⟨0, (0x40, { counts := [1024], drq := true }), by decide⟩
    have hoffers : Offers (phasedDrive 0x170) plainCdrom { counts := [1024, 1024], drq := true }
        [1024, 1024] := .more (.status (.done _)) (by decide) (.last _)
    exact ((h.presents 1 _ hawait).2 hidle).2 _ hoffers (by unfold SplitsSector; decide)

end Ziemniak.Stage2
