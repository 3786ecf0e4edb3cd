import Ziemniak.BareMetal.FirstBest
import Ziemniak.BareMetal.Loop
import Ziemniak.BareMetal.Words
import Ziemniak.Stage2.Defs

/-! # The video mode

`findVBEmode` of `stub.asm` asks the BIOS for every mode of its list and keeps the one with the
most pixels.  It never looks at what the call reports: behind a failed one it takes what the
buffer held before for an answer.  Blocks of earlier modes do no harm, because only a strictly
larger mode replaces the best one; what lay in the buffer at the start may.  Of an empty list
the terminator itself is taken for a mode, and the words behind it.  `findsBest_iff` says for
which answers the mode is nevertheless the right one. -/

namespace Ziemniak.Stage2

open BareMetal

/-! ### The search -/

/-- What function 4F01 writes for a mode. -/
structure ModeInfo where
  buffer : ℕ → BitVec 8

namespace ModeInfo

def word (b : ModeInfo) (off : ℕ) : BitVec 16 := b.buffer (off + 1) ++ b.buffer off

def dword (b : ModeInfo) (off : ℕ) : BitVec 32 := b.word (off + 2) ++ b.word off

def attributes (b : ModeInfo) : BitVec 16 := b.word 0x00
def width (b : ModeInfo) : BitVec 16 := b.word 0x12
def height (b : ModeInfo) : BitVec 16 := b.word 0x14
def bpp (b : ModeInfo) : BitVec 8 := b.buffer 0x19

/-- The product, put together in `edx` from the halves that `mul bx` leaves. -/
def pixels (b : ModeInfo) : BitVec 32 :=
  let prod : BitVec 32 := b.width.setWidth 32 * b.height.setWidth 32
  let dx : BitVec 16 := (prod >>> 16).setWidth 16
  let ax : BitVec 16 := prod.setWidth 16
  let edx : BitVec 32 := (0x8765 : BitVec 16) ++ dx
  ((edx <<< 16) >>> 16).setWidth 16 ++ ax

end ModeInfo

/-- The answers to function 4F01, `none` where it fails, and whether 4F02 succeeds. -/
structure VideoBios where
  query : BitVec 16 → Option ModeInfo
  setMode : BitVec 16 → Bool

/-- `info` is the buffer at `es:di`. -/
structure ModeSearch where
  si : BitVec 16
  info : ModeInfo
  screen_mode : BitVec 16
  screen_pixels : BitVec 32

section search

variable (bios : VideoBios) (word : BitVec 16 → BitVec 16)

/-- From `.getMaximum` to `.checknext`; `word` is the memory behind `fs`. -/
def checkMode (s : ModeSearch) : ModeSearch :=
  let cx := word s.si ||| 0x4000
  let info := (bios.query cx).getD s.info
  if info.bpp ≠ 32 then { s with info }
  else if info.attributes &&& 0x0001 = 0 then { s with info }
  else if 1000 ≤ info.height then { s with info }
  else if info.pixels ≤ s.screen_pixels then { s with info }
  else { s with info, screen_mode := cx, screen_pixels := info.pixels }

def getMaximum (s : ModeSearch) : ModeSearch :=
  let s := checkMode bios word s
  { s with si := s.si + 2 }

/-- The value of `screen_mode` at `.SetVBE`.  The terminator is tested behind each mode. -/
def findVBEmode (fuel : ℕ) (version : BitVec 8) (si : BitVec 16) (info : ModeInfo) :
    Option (BitVec 16) :=
  if version < 0x02 then some 0x4115
  else
    (whileLoop (fun s => word s.si != 0xFFFF) (fun s => some (getMaximum bios word s)) fuel
      (getMaximum bios word { si, info, screen_mode := 0, screen_pixels := 0 })).map
        ModeSearch.screen_mode

/-- `.SetVBE`; `none` is the jump to `.svga_fail`. -/
def setVBE (screen_mode : BitVec 16) (rmd : RealModeData) : Option RealModeData :=
  (bios.query screen_mode).bind fun info =>
    let rmd := { rmd with
      framebuf_ptr := info.dword 0x28
      red_pos := info.buffer 0x20
      green_pos := info.buffer 0x22
      blue_pos := info.buffer 0x24
      rsrvd_pos := info.buffer 0x26
      scr_width := info.word 0x12
      scr_height := info.word 0x14 }
    if bios.setMode screen_mode then some rmd else none

end search

/-! ### The right mode -/

/-- The pixels of a supported mode of 32 bits and less than 1000 lines. -/
def ModeInfo.score (b : ModeInfo) : ℕ :=
  if b.bpp = 32 ∧ b.attributes &&& 0x0001 ≠ 0 ∧ b.height < 1000 then
    b.width.toNat * b.height.toNat
  else 0

/-- The same of the answer to the query of a mode, zero when it fails. -/
def modeScore (bios : VideoBios) (mode : BitVec 16) : ℕ :=
  (bios.query (mode ||| 0x4000)).elim 0 ModeInfo.score

/-- The words of the list from `si` on. -/
def modeWords (word : BitVec 16 → BitVec 16) (si : BitVec 16) (n : ℕ) : List (BitVec 16) :=
  (List.range n).map (fun i => word (si + BitVec.ofNat 16 (2 * i)))

/-- The modes `l` lie at `si`, and the terminator behind them. -/
structure ModeList (word : BitVec 16 → BitVec 16) (si : BitVec 16) (l : List (BitVec 16)) :
    Prop where
  words : l = modeWords word si l.length
  modes : 0xFFFF ∉ l
  terminator : word (si + BitVec.ofNat 16 (2 * l.length)) = 0xFFFF

/-- `screen_mode` is the first of the largest listed modes that can be used, with the bit for
the linear frame buffer, and zero when there is none. -/
def Selects (bios : VideoBios) (l : List (BitVec 16)) (screen_mode : BitVec 16) : Prop :=
  ∃ m, FirstBest (modeScore bios) l m ∧ screen_mode = m.elim 0 (· ||| 0x4000)

/-- The search ends with the right mode. -/
def FindsBest (bios : VideoBios) (word : BitVec 16 → BitVec 16) (version : BitVec 8)
    (si : BitVec 16) (info : ModeInfo) (l : List (BitVec 16)) : Prop :=
  ∃ fuel screen_mode, findVBEmode bios word fuel version si info = some screen_mode ∧
    Selects bios l screen_mode

/-- The first answer is one, or what the buffer held is no usable mode, or a listed one is
larger; of an empty list, nothing that is taken for a mode can be used. -/
structure Harmless (bios : VideoBios) (word : BitVec 16 → BitVec 16) (si : BitVec 16)
    (info : ModeInfo) (l : List (BitVec 16)) : Prop where
  first : ∀ m ∈ l.head?, bios.query (m ||| 0x4000) = none → info.score ≠ 0 →
    ∃ m' ∈ l, info.score < modeScore bios m'
  empty : l = [] → (bios.query 0xFFFF = none → info.score = 0) ∧
    ∀ k, (∀ j, 0 < j → j < k → word (si + BitVec.ofNat 16 (2 * j)) ≠ 0xFFFF) →
      modeScore bios (word (si + BitVec.ofNat 16 (2 * k))) = 0

/-! ### One mode -/

theorem edx_toNat (dx ax : BitVec 16) :
    (((((0x8765 : BitVec 16) ++ dx : BitVec 32) <<< 16) >>> 16).setWidth 16 ++ ax :
      BitVec 32).toNat = dx.toNat * 2 ^ 16 + ax.toNat := by
  have hdx := dx.isLt
  have hhigh : (0x8765 : BitVec 16).toNat = 0x8765 := rfl
  rw [toNat_append_eq, BitVec.toNat_setWidth, BitVec.toNat_ushiftRight, BitVec.toNat_shiftLeft,
    toNat_append_eq, hhigh, Nat.shiftRight_eq_div_pow, Nat.shiftLeft_eq]
  omega

theorem ModeInfo.pixels_toNat (b : ModeInfo) :
    b.pixels.toNat = b.width.toNat * b.height.toNat := by
  have hw := b.width.isLt
  have hh := b.height.isLt
  have hmul : b.width.toNat * b.height.toNat ≤ 65535 * 65535 := Nat.mul_le_mul (by omega) (by omega)
  have hprod : (b.width.setWidth 32 * b.height.setWidth 32 : BitVec 32).toNat =
      b.width.toNat * b.height.toNat := toNat_mul_setWidth (by omega) _ _
  unfold pixels
  rw [edx_toNat, BitVec.toNat_setWidth, BitVec.toNat_setWidth, BitVec.toNat_ushiftRight,
    Nat.shiftRight_eq_div_pow, hprod]
  omega

theorem ModeInfo.score_of_usable {b : ModeInfo}
    (h : b.bpp = 32 ∧ b.attributes &&& 0x0001 ≠ 0 ∧ b.height < 1000) :
    b.score = b.pixels.toNat := by
  unfold score
  rw [if_pos h, b.pixels_toNat]

theorem ModeInfo.score_of_not_usable {b : ModeInfo}
    (h : ¬ (b.bpp = 32 ∧ b.attributes &&& 0x0001 ≠ 0 ∧ b.height < 1000)) : b.score = 0 := if_neg h

theorem ModeInfo.score_of_pos {b : ModeInfo} (h : 0 < b.score) : b.score = b.pixels.toNat := by
  by_cases husable : b.bpp = 32 ∧ b.attributes &&& 0x0001 ≠ 0 ∧ b.height < 1000
  · exact score_of_usable husable
  · rw [score_of_not_usable husable] at h
    exact absurd h (Nat.lt_irrefl 0)

section round

variable {bios : VideoBios} {word : BitVec 16 → BitVec 16} {s : ModeSearch}

/-- A mode is taken when it has more pixels than the best one. -/
theorem checkMode_eq (bios : VideoBios) (word : BitVec 16 → BitVec 16) (s : ModeSearch) :
    checkMode bios word s =
      let cx := word s.si ||| 0x4000
      let info := (bios.query cx).getD s.info
      if s.screen_pixels.toNat < info.score then
        { s with info, screen_mode := cx, screen_pixels := info.pixels }
      else { s with info } := by
  unfold checkMode
  simp only
  generalize (bios.query (word s.si ||| 0x4000)).getD s.info = info
  by_cases husable : info.bpp = 32 ∧ info.attributes &&& 0x0001 ≠ 0 ∧ info.height < 1000
  · obtain ⟨hbpp, hsupported, hheight⟩ := husable
    rw [ModeInfo.score_of_usable ⟨hbpp, hsupported, hheight⟩, if_neg (not_not.mpr hbpp),
      if_neg hsupported, if_neg (BitVec.not_le.mpr hheight)]
    by_cases hbest : info.pixels ≤ s.screen_pixels
    · rw [if_pos hbest, if_neg (Nat.not_lt.mpr hbest)]
    · have hlt : s.screen_pixels.toNat < info.pixels.toNat := BitVec.not_le.mp hbest
      rw [if_neg hbest, if_pos hlt]
  · rw [ModeInfo.score_of_not_usable husable, if_neg (Nat.not_lt_zero _)]
    split_ifs with hbpp hsupported hheight hbest
    · rfl
    · rfl
    · rfl
    · rfl
    · exact absurd ⟨not_not.mp hbpp, hsupported, BitVec.not_le.mp hheight⟩ husable

/-- The modes with the scores of their answers; to the first one a failing BIOS answers with what
the buffer holds. -/
def answers (bios : VideoBios) (info : ModeInfo) : List (BitVec 16) → List (BitVec 16 × ℕ)
  | [] => []
  | m :: l => (m, ((bios.query (m ||| 0x4000)).getD info).score) ::
      l.map (fun m => (m, modeScore bios m))

/-- `b` is the best mode so far, and the buffer holds nothing better. -/
structure Best (s : ModeSearch) (b : Option (BitVec 16 × ℕ)) : Prop where
  mode : s.screen_mode = b.elim 0 (fun p => p.1 ||| 0x4000)
  pixels : s.screen_pixels.toNat = b.elim 0 Prod.snd
  seen : s.info.score ≤ s.screen_pixels.toNat

theorem Best.round {b : Option (BitVec 16 × ℕ)}
    (hmode : s.screen_mode = b.elim 0 (fun p => p.1 ||| 0x4000))
    (hpixels : s.screen_pixels.toNat = b.elim 0 Prod.snd) :
    Best (getMaximum bios word s) (better Prod.snd b
      (word s.si, ((bios.query (word s.si ||| 0x4000)).getD s.info).score)) := by
  unfold getMaximum better
  rw [checkMode_eq]
  simp only [← hpixels]
  generalize (bios.query (word s.si ||| 0x4000)).getD s.info = info
  split_ifs with hlt
  · have hscore := ModeInfo.score_of_pos (Nat.zero_lt_of_lt hlt)
    exact ⟨rfl, hscore.symm, Nat.le_of_eq hscore⟩
  · exact ⟨hmode, hpixels, Nat.le_of_not_lt hlt⟩

theorem modeScore_of_answer {m : BitVec 16} {b : ModeInfo}
    (h : bios.query (m ||| 0x4000) = some b) : modeScore bios m = b.score := by
  unfold modeScore
  rw [h, Option.elim_some]

theorem modeScore_of_failure {m : BitVec 16} (h : bios.query (m ||| 0x4000) = none) :
    modeScore bios m = 0 := by
  unfold modeScore
  rw [h, Option.elim_none]

/-- Behind the first mode a failing query changes nothing: the buffer has been seen. -/
theorem Best.next {b : Option (BitVec 16 × ℕ)} (h : Best s b) : Best (getMaximum bios word s)
    (better Prod.snd b (word s.si, modeScore bios (word s.si))) := by
  have hround : Best (getMaximum bios word s) _ := Best.round h.mode h.pixels
  cases hquery : bios.query (word s.si ||| 0x4000) with
  | some info =>
      rw [hquery, Option.getD_some, ← modeScore_of_answer hquery] at hround
      exact hround
  | none =>
      rw [hquery, Option.getD_none] at hround
      have hstale : better Prod.snd b (word s.si, s.info.score) = b :=
        better_of_le (h.pixels ▸ h.seen)
      have hzero : better Prod.snd b (word s.si, 0) = b := better_of_le (Nat.zero_le _)
      rw [hstale] at hround
      rw [modeScore_of_failure hquery, hzero]
      exact hround

end round

/-! ### The whole list -/

theorem answers_snoc (bios : VideoBios) (info : ModeInfo) {l : List (BitVec 16)} (hl : l ≠ [])
    (m : BitVec 16) :
    answers bios info (l ++ [m]) = answers bios info l ++ [(m, modeScore bios m)] := by
  cases l with
  | nil => exact absurd rfl hl
  | cons m' l =>
      unfold answers
      rw [List.cons_append]
      simp

theorem modeWords_succ (word : BitVec 16 → BitVec 16) (si : BitVec 16) (n : ℕ) :
    modeWords word si (n + 1) = modeWords word si n ++ [word (si + BitVec.ofNat 16 (2 * n))] := by
  unfold modeWords
  rw [List.range_succ, List.map_append]
  rfl

section run

variable (bios : VideoBios) (word : BitVec 16 → BitVec 16) (si : BitVec 16) (info : ModeInfo)

/-- The best of the first `n` words. -/
def bestOf (n : ℕ) : Option (BitVec 16 × ℕ) :=
  (answers bios info (modeWords word si n)).foldl (better Prod.snd) none

/-- The state after `n` rounds. -/
def searchAfter (n : ℕ) : ModeSearch :=
  (getMaximum bios word)^[n] { si, info, screen_mode := 0, screen_pixels := 0 }

theorem searchAfter_si (n : ℕ) :
    (searchAfter bios word si info n).si = si + BitVec.ofNat 16 (2 * n) := by
  induction n with
  | zero => simp [searchAfter]
  | succ n ih =>
      have hstep : (searchAfter bios word si info (n + 1)).si =
          (searchAfter bios word si info n).si + 2 := by
        unfold searchAfter
        rw [Function.iterate_succ_apply']
        unfold getMaximum
        rw [checkMode_eq]
        simp only
        split_ifs <;> rfl
      rw [hstep, ih]
      bv_omega

/-- **The search** keeps the best of the words it has been to. -/
theorem searchAfter_best (n : ℕ) :
    Best (searchAfter bios word si info (n + 1)) (bestOf bios word si info (n + 1)) := by
  induction n with
  | zero =>
      have hround : Best (getMaximum bios word
          { si, info, screen_mode := 0, screen_pixels := 0 }) _ := Best.round (b := none) rfl rfl
      simpa [bestOf, modeWords, answers, searchAfter] using hround
  | succ n ih =>
      have hne : modeWords word si (n + 1) ≠ [] := by simp [modeWords]
      have hnext : Best (getMaximum bios word _) _ := ih.next
      rw [searchAfter_si] at hnext
      have hstep : searchAfter bios word si info (n + 1 + 1) =
          getMaximum bios word (searchAfter bios word si info (n + 1)) :=
        Function.iterate_succ_apply' ..
      rw [hstep]
      unfold bestOf at hnext ⊢
      rw [modeWords_succ word si (n + 1), answers_snoc bios info hne, List.foldl_append]
      exact hnext

theorem bestOf_firstBest (n : ℕ) : FirstBest Prod.snd (answers bios info (modeWords word si n))
    (bestOf bios word si info n) := firstBest_scan _ _

/-- What the search returns when the first terminator behind its first word is the `n`th. -/
theorem findVBEmode_returns {version : BitVec 8} (hversion : ¬ version < 0x02) {n : ℕ} (hn : 0 < n)
    (hbefore : ∀ j, 0 < j → j < n → word (si + BitVec.ofNat 16 (2 * j)) ≠ 0xFFFF)
    (hend : word (si + BitVec.ofNat 16 (2 * n)) = 0xFFFF) (screen_mode : BitVec 16) :
    (∃ fuel, findVBEmode bios word fuel version si info = some screen_mode) ↔
      screen_mode = (bestOf bios word si info n).elim 0 (fun p => p.1 ||| 0x4000) := by
  obtain ⟨n, rfl⟩ : ∃ k, n = k + 1 := ⟨n - 1, by omega⟩
  have hafter : ∀ j, (getMaximum bios word)^[j] (searchAfter bios word si info 1) =
      searchAfter bios word si info (j + 1) := fun j => (Function.iterate_succ_apply ..).symm
  have hguard : ∀ j, (word (searchAfter bios word si info (j + 1)).si != 0xFFFF) =
      (word (si + BitVec.ofNat 16 (2 * (j + 1))) != 0xFFFF) := by
    intro j
    rw [searchAfter_si]
  have hends : ∀ t, Ends (fun s : ModeSearch => word s.si != 0xFFFF)
      (fun s => some (getMaximum bios word s)) (searchAfter bios word si info 1) t ↔
      t = searchAfter bios word si info (n + 1) := by
    intro t
    rw [ends_iff_iterate]
    simp only [hafter, hguard, bne_iff_ne, bne_eq_false_iff_eq]
    constructor
    · rintro ⟨k, hk, hstop, rfl⟩
      rcases Nat.lt_trichotomy k n with hlt | rfl | hgt
      · exact absurd hstop (hbefore (k + 1) (Nat.succ_pos k) (by omega))
      · rfl
      · exact absurd hend (hk n hgt)
    · rintro rfl
      exact ⟨n, fun j hj => hbefore (j + 1) (Nat.succ_pos j) (by omega), hend, rfl⟩
  rw [← (searchAfter_best bios word si info n).mode]
  unfold findVBEmode
  simp only [if_neg hversion]
  constructor
  · rintro ⟨fuel, h⟩
    obtain ⟨t, ht, rfl⟩ := Option.map_eq_some_iff.mp h
    rw [(hends t).mp ⟨fuel, ht⟩]
  · rintro rfl
    obtain ⟨fuel, ht⟩ := (hends _).mpr rfl
    exact ⟨fuel, Option.map_eq_some_iff.mpr ⟨_, ht, rfl⟩⟩

end run

/-! ### When the mode is right -/

section right

variable {bios : VideoBios} {word : BitVec 16 → BitVec 16} {si : BitVec 16} {info : ModeInfo}

theorem framebuf_bit_ne_zero (m : BitVec 16) : m ||| 0x4000 ≠ 0 := by
  intro h
  have hbit := congrArg (fun x : BitVec 16 => x.getLsbD 14) h
  simp at hbit

theorem selects_of_scores {l : List (BitVec 16)} {b : Option (BitVec 16 × ℕ)}
    (h : FirstBest Prod.snd (l.map (fun m => (m, modeScore bios m))) b) :
    Selects bios l (b.elim 0 (fun p => p.1 ||| 0x4000)) := by
  obtain ⟨a, rfl, ha⟩ := h.of_map
  refine ⟨a, ha, ?_⟩
  cases a <;> rfl

theorem not_selects_failure {m : BitVec 16} {l : List (BitVec 16)}
    (h : bios.query (m ||| 0x4000) = none) : ¬ Selects bios l (m ||| 0x4000) := by
  rintro ⟨a, ha, hmode⟩
  cases a with
  | none => exact framebuf_bit_ne_zero m hmode
  | some w =>
      obtain ⟨-, -, -, hpos, -⟩ := ha
      have hfailed : bios.query (w ||| 0x4000) = none := by
        rw [← h]
        exact congrArg bios.query hmode.symm
      rw [modeScore_of_failure hfailed] at hpos
      exact absurd hpos (Nat.lt_irrefl 0)

theorem selects_cons_iff {m : BitVec 16} {l : List (BitVec 16)} {b : Option (BitVec 16 × ℕ)}
    (hb : FirstBest Prod.snd (answers bios info (m :: l)) b) :
    Selects bios (m :: l) (b.elim 0 (fun p => p.1 ||| 0x4000)) ↔
      (bios.query (m ||| 0x4000) = none → info.score ≠ 0 →
        ∃ m' ∈ m :: l, info.score < modeScore bios m') := by
  simp only [answers] at hb
  cases hquery : bios.query (m ||| 0x4000) with
  | some first =>
      rw [hquery, Option.getD_some, ← modeScore_of_answer hquery] at hb
      exact iff_of_true (selects_of_scores hb) (fun h => by cases h)
  | none =>
      rw [hquery, Option.getD_none] at hb
      have hzero := modeScore_of_failure hquery
      constructor
      · intro hsel _ hne
        by_contra hnone
        have hfirst := hb.head (Nat.pos_of_ne_zero hne) (by
          intro p hp
          obtain ⟨m', hm', rfl⟩ := List.mem_map.mp hp
          exact Nat.le_of_not_lt (fun hlt => hnone ⟨m', List.mem_cons_of_mem m hm', hlt⟩))
        rw [hfirst] at hsel
        exact not_selects_failure hquery hsel
      · intro h
        apply selects_of_scores
        rw [List.map_cons, hzero]
        by_cases hinfo : info.score = 0
        · rw [← hinfo]
          exact hb
        · obtain ⟨m', hm', hlt⟩ := h rfl hinfo
          refine hb.lower_head (Nat.zero_le _) ⟨(m', modeScore bios m'), ?_, hlt⟩
          rcases List.mem_cons.mp hm' with rfl | hm'
          · omega
          · exact List.mem_map_of_mem hm'

theorem selects_nil_iff {b : Option (BitVec 16 × ℕ)} :
    Selects bios [] (b.elim 0 (fun p => p.1 ||| 0x4000)) ↔ b = none := by
  constructor
  · rintro ⟨a, ha, hmode⟩
    cases a with
    | some w =>
        obtain ⟨before, after, h, -⟩ := ha
        simp at h
    | none =>
        cases b with
        | none => rfl
        | some p => exact absurd hmode (framebuf_bit_ne_zero p.1)
  · rintro rfl
    exact ⟨none, List.forall_mem_nil _, rfl⟩

theorem findsBest_iff_selects {version : BitVec 8} (hversion : ¬ version < 0x02) {n : ℕ}
    (hn : 0 < n)
    (hbefore : ∀ j, 0 < j → j < n → word (si + BitVec.ofNat 16 (2 * j)) ≠ 0xFFFF)
    (hend : word (si + BitVec.ofNat 16 (2 * n)) = 0xFFFF) (l : List (BitVec 16)) :
    FindsBest bios word version si info l ↔
      Selects bios l ((bestOf bios word si info n).elim 0 (fun p => p.1 ||| 0x4000)) := by
  have hreturns := findVBEmode_returns bios word si info hversion hn hbefore hend
  constructor
  · rintro ⟨fuel, screen_mode, h, hsel⟩
    rw [← (hreturns screen_mode).mp ⟨fuel, h⟩]
    exact hsel
  · intro hsel
    obtain ⟨fuel, h⟩ := (hreturns _).mpr rfl
    exact ⟨fuel, _, h, hsel⟩

theorem ModeList.ne_terminator {l : List (BitVec 16)} (h : ModeList word si l) {j : ℕ}
    (hj : j < l.length) : word (si + BitVec.ofNat 16 (2 * j)) ≠ 0xFFFF := by
  intro heq
  apply h.modes
  rw [← heq, h.words]
  exact List.mem_map.mpr ⟨j, List.mem_range.mpr hj, rfl⟩

/-- The words behind an empty list, up to the next terminator; the list pointer comes round to the
first one at the latest. -/
theorem exists_terminator (h : word si = 0xFFFF) :
    ∃ n, 0 < n ∧ word (si + BitVec.ofNat 16 (2 * n)) = 0xFFFF := by
  refine ⟨32768, by decide, ?_⟩
  have hround : BitVec.ofNat 16 (2 * 32768) = 0#16 := rfl
  rw [hround, BitVec.add_zero]
  exact h

theorem mem_modeWords {n : ℕ} {m : BitVec 16} :
    m ∈ modeWords word si n ↔ ∃ k < n, word (si + BitVec.ofNat 16 (2 * k)) = m := by
  unfold modeWords
  simp

theorem modeWords_head (word : BitVec 16 → BitVec 16) (si : BitVec 16) {n : ℕ} (hn : 0 < n) :
    ∃ l, modeWords word si n = word si :: l := by
  obtain ⟨n, rfl⟩ : ∃ k, n = k + 1 := ⟨n - 1, by omega⟩
  unfold modeWords
  have hfirst : si + BitVec.ofNat 16 (2 * 0) = si := BitVec.add_zero si
  rw [List.range_succ_eq_map, List.map_cons, hfirst]
  exact ⟨_, rfl⟩

theorem answers_zero_iff {m : BitVec 16} {l : List (BitVec 16)} :
    (∀ p ∈ answers bios info (m :: l), p.2 = 0) ↔
      (bios.query (m ||| 0x4000) = none → info.score = 0) ∧
        ∀ m' ∈ m :: l, modeScore bios m' = 0 := by
  have hscore : modeScore bios m = (bios.query (m ||| 0x4000)).elim 0 ModeInfo.score := rfl
  simp only [answers, List.forall_mem_cons, List.forall_mem_map, hscore]
  cases bios.query (m ||| 0x4000) with
  | none => simp
  | some b => simp

/-- Of an empty list the search goes through the terminator and the words behind it. -/
theorem bestOf_none_iff (h : word si = 0xFFFF) {n : ℕ} (hn : 0 < n)
    (hbefore : ∀ j, 0 < j → j < n → word (si + BitVec.ofNat 16 (2 * j)) ≠ 0xFFFF)
    (hend : word (si + BitVec.ofNat 16 (2 * n)) = 0xFFFF) :
    bestOf bios word si info n = none ↔ (bios.query 0xFFFF = none → info.score = 0) ∧
      ∀ k, (∀ j, 0 < j → j < k → word (si + BitVec.ofNat 16 (2 * j)) ≠ 0xFFFF) →
        modeScore bios (word (si + BitVec.ofNat 16 (2 * k))) = 0 := by
  obtain ⟨l, hl⟩ := modeWords_head word si hn
  have hbest := bestOf_firstBest bios word si info n
  rw [hbest.none_iff, hl, answers_zero_iff, ← hl, h]
  refine and_congr_right fun _ => ?_
  constructor
  · intro hzero k hk
    rcases Nat.lt_trichotomy k n with hlt | rfl | hgt
    · exact hzero _ (mem_modeWords.mpr ⟨k, hlt, rfl⟩)
    · rw [hend, ← h]
      exact hzero _ (by rw [hl]; exact List.mem_cons_self)
    · exact absurd hend (hk n hn hgt)
  · intro hzero m hm
    obtain ⟨k, hk, rfl⟩ := mem_modeWords.mp hm
    exact hzero k (fun j hj hjk => hbefore j hj (by omega))

theorem findsBest_nil_iff {version : BitVec 8} (hversion : ¬ version < 0x02)
    (h : word si = 0xFFFF) :
    FindsBest bios word version si info [] ↔ (bios.query 0xFFFF = none → info.score = 0) ∧
      ∀ k, (∀ j, 0 < j → j < k → word (si + BitVec.ofNat 16 (2 * j)) ≠ 0xFFFF) →
        modeScore bios (word (si + BitVec.ofNat 16 (2 * k))) = 0 := by
  have hexists := exists_terminator h
  have hspec := Nat.find_spec hexists
  have hbefore : ∀ j, 0 < j → j < Nat.find hexists →
      word (si + BitVec.ofNat 16 (2 * j)) ≠ 0xFFFF :=
    fun j hj hlt heq => Nat.find_min hexists hlt ⟨hj, heq⟩
  rw [findsBest_iff_selects hversion hspec.1 hbefore hspec.2, selects_nil_iff,
    bestOf_none_iff h hspec.1 hbefore hspec.2]

theorem findsBest_cons_iff {version : BitVec 8} (hversion : ¬ version < 0x02) {m : BitVec 16}
    {l : List (BitVec 16)} (hlist : ModeList word si (m :: l)) :
    FindsBest bios word version si info (m :: l) ↔
      (bios.query (m ||| 0x4000) = none → info.score ≠ 0 →
        ∃ m' ∈ m :: l, info.score < modeScore bios m') := by
  have hbest := bestOf_firstBest bios word si info (m :: l).length
  rw [← hlist.words] at hbest
  rw [findsBest_iff_selects (n := (m :: l).length) hversion (Nat.succ_pos _)
    (fun j _ hj => hlist.ne_terminator hj) hlist.terminator, selects_cons_iff hbest]

/-- **The mode** is right exactly when no stale block and no word behind an empty list wins. -/
theorem findsBest_iff {version : BitVec 8} (hversion : ¬ version < 0x02) {l : List (BitVec 16)}
    (hlist : ModeList word si l) :
    FindsBest bios word version si info l ↔ Harmless bios word si info l := by
  cases l with
  | nil =>
      have hsi : word si = 0xFFFF := by simpa using hlist.terminator
      rw [findsBest_nil_iff hversion hsi]
      exact ⟨fun h => ⟨fun m hm => by simp at hm, fun _ => h⟩, fun h => h.empty rfl⟩
  | cons m l =>
      rw [findsBest_cons_iff hversion hlist]
      constructor
      · intro h
        refine ⟨?_, fun hnil => by cases hnil⟩
        intro m' hm'
        obtain rfl := Option.some.inj hm'
        exact h
      · intro h
        exact h.first m rfl

end right

/-! ### What the loader is given -/

section given

variable {bios : VideoBios} {l : List (BitVec 16)} {screen_mode : BitVec 16}

theorem modeScore_pos_iff {m : BitVec 16} : 0 < modeScore bios m ↔
    ∃ info, bios.query (m ||| 0x4000) = some info ∧ info.bpp = 32 ∧
      info.attributes &&& 0x0001 ≠ 0 ∧ info.height < 1000 ∧
      0 < info.width.toNat * info.height.toNat := by
  unfold modeScore
  cases bios.query (m ||| 0x4000) with
  | none => simp
  | some info =>
      simp only [Option.elim_some, Option.some.injEq, exists_eq_left']
      unfold ModeInfo.score
      split_ifs with husable
      · obtain ⟨hbpp, hsupported, hheight⟩ := husable
        exact ⟨fun h => ⟨hbpp, hsupported, hheight, h⟩, fun h => h.2.2.2⟩
      · refine iff_of_false (Nat.lt_irrefl 0) ?_
        rintro ⟨hbpp, hsupported, hheight, -⟩
        exact husable ⟨hbpp, hsupported, hheight⟩

/-- A selected mode is a listed one whose own query has succeeded with a block that can be used,
and none of the list is larger. -/
theorem Selects.block (h : Selects bios l screen_mode) (hne : screen_mode ≠ 0) :
    ∃ m ∈ l, screen_mode = m ||| 0x4000 ∧ ∃ info, bios.query screen_mode = some info ∧
      info.bpp = 32 ∧ info.attributes &&& 0x0001 ≠ 0 ∧ info.height < 1000 ∧
      0 < info.width.toNat * info.height.toNat ∧
      ∀ m' ∈ l, modeScore bios m' ≤ info.width.toNat * info.height.toNat := by
  obtain ⟨a, ha, rfl⟩ := h
  cases a with
  | none => exact absurd rfl hne
  | some m =>
      have hle : ∀ m' ∈ l, modeScore bios m' ≤ modeScore bios m := fun m' hm' => ha.le hm'
      obtain ⟨before, after, rfl, hpos, -⟩ := ha
      obtain ⟨info, hquery, hbpp, hsupported, hheight, hpixels⟩ := modeScore_pos_iff.mp hpos
      have hscore : modeScore bios m = info.width.toNat * info.height.toNat := by
        rw [modeScore_of_answer hquery, ModeInfo.score_of_usable ⟨hbpp, hsupported, hheight⟩,
          info.pixels_toNat]
      rw [hscore] at hle
      exact ⟨m, by simp, rfl, info, hquery, hbpp, hsupported, hheight, hpixels, hle⟩

/-- `.SetVBE` hands on the size of the selected mode, if the BIOS sets it. -/
theorem setVBE_selected (h : Selects bios l screen_mode) (hne : screen_mode ≠ 0)
    (hset : bios.setMode screen_mode = true) (rmd : RealModeData) :
    ∃ rmd', setVBE bios screen_mode rmd = some rmd' ∧ rmd'.scr_height < 1000 ∧
      ∀ m' ∈ l, modeScore bios m' ≤ rmd'.scr_width.toNat * rmd'.scr_height.toNat := by
  obtain ⟨m, -, -, info, hquery, -, -, hheight, -, hle⟩ := h.block hne
  unfold setVBE
  rw [hquery, Option.bind_some, if_pos hset]
  exact ⟨_, rfl, hheight, hle⟩

end given

/-! ### Two machines -/

/-- A supported mode of 32 bits. -/
def modeBlock (width height : BitVec 16) : ModeInfo where
  buffer off :=
    if off = 0x00 then 0x01
    else if off = 0x12 then width.setWidth 8
    else if off = 0x13 then (width >>> 8).setWidth 8
    else if off = 0x14 then height.setWidth 8
    else if off = 0x15 then (height >>> 8).setWidth 8
    else if off = 0x19 then 32
    else 0

/-- 800 times 600 and 1024 times 768 pixels. -/
def twoModeBios : VideoBios where
  query cx :=
    if cx = 0x4115 then some (modeBlock 800 600)
    else if cx = 0x4118 then some (modeBlock 1024 768)
    else none
  setMode _ := true

/-- A list with the words `l` and the terminator behind them. -/
def wordsAt (l : List (BitVec 16)) (off : BitVec 16) : BitVec 16 := l.getD (off.toNat / 2) 0xFFFF

theorem findsBest_iff_two :
    FindsBest twoModeBios (wordsAt [0x115, 0x118]) 0x03 0 { buffer := fun _ => 0 }
      [0x115, 0x118] := by
  have hlist : ModeList (wordsAt [0x115, 0x118]) 0 [0x115, 0x118] := ⟨by decide, by decide, rfl⟩
  refine (findsBest_iff (by decide) hlist).mpr ⟨?_, fun h => by cases h⟩
  intro m hm hquery
  obtain rfl := Option.some.inj hm
  exact absurd hquery (by decide)

/-- A mode whose query fails is selected for the block that the buffer happened to hold; and a
word behind an empty list is. -/
theorem findVBEmode_wrong :
    ModeList (wordsAt [0x100]) 0 [0x100] ∧
    ¬ FindsBest twoModeBios (wordsAt [0x100]) 0x03 0 (modeBlock 800 600) [0x100] ∧
    ModeList (wordsAt [0xFFFF, 0x118]) 0 [] ∧
    ¬ FindsBest twoModeBios (wordsAt [0xFFFF, 0x118]) 0x03 0 { buffer := fun _ => 0 } [] := by
  have hlist : ModeList (wordsAt [0x100]) 0 [0x100] := ⟨by decide, by decide, rfl⟩
  refine ⟨hlist, ?_, ⟨rfl, by decide, rfl⟩, ?_⟩
  · intro h
    obtain ⟨m, hm, hlt⟩ := (findsBest_cons_iff (by decide) hlist).mp h rfl (by decide)
    obtain rfl := List.mem_singleton.mp hm
    exact absurd hlt (by decide)
  · intro h
    have hzero := ((findsBest_nil_iff (by decide) rfl).mp h).2 1 (fun j _ _ => by omega)
    exact absurd hzero (by decide)

end Ziemniak.Stage2
