import Ziemniak.BareMetal.LogText
import Ziemniak.Kernel.Exceptions
import Ziemniak.Kernel.Hex
import Ziemniak.Kernel.Loopback
import Mathlib.Data.List.GetD

/-! # Debug messages

`debug.c` on the first serial port.  Every message is three calls of `serial_print`, and a number
goes through the static buffer of `hex`.  What a call sends is stated for any log of the bytes that
go to the port (`Logged`): a message is a line of the log, the report of a crash a list of lines
(`debugCrash_adds`), and without a port nothing is sent. -/

namespace Ziemniak.Kernel

open BareMetal

/-! ### The functions -/

/-- A string literal. -/
def literal (s : String) : BitVec 64 → BitVec 8 := fun i => (ascii s).getD i.toNat 0

/-- The static buffer of `hex`, and the device. -/
abbrev DebugState (δ : Type) := (ℕ → BitVec 8) × δ

section functions

variable {δ : Type} (dev : Device δ) (fuel : ℕ) (ctx : SerialCtxs)

def printMsg (header msg : BitVec 64 → BitVec 8) (d : δ) : Option δ := do
  let (_, d) ← serialPrint dev fuel 0 header ctx d
  let (_, d) ← serialPrint dev fuel 0 msg ctx d
  let (_, d) ← serialPrint dev fuel 0 (literal "\n") ctx d
  return d

def debugInit (m : Mem) (d : δ) : ℕ × SerialCtxs × δ := serialInit dev m 0 0 ctx d

def debugInfo (msg : BitVec 64 → BitVec 8) (d : δ) : Option δ :=
  printMsg dev fuel ctx (literal "INFO: ") msg d

def debugWarn (msg : BitVec 64 → BitVec 8) (d : δ) : Option δ :=
  printMsg dev fuel ctx (literal "WARN: ") msg d

def debugErr (msg : BitVec 64 → BitVec 8) (d : δ) : Option δ :=
  printMsg dev fuel ctx (literal "ERR: ") msg d

def debugNum (msg : BitVec 64 → BitVec 8) (num : BitVec 64) (s : DebugState δ) :
    Option (DebugState δ) :=
  let buf := hex num s.1
  (printMsg dev fuel ctx msg (fun i => buf i.toNat) s.2).map (fun d => (buf, d))

def errorMsg : List String :=
  ["DIVIDE BY ZERO", "DEBUG", "NON MASKABLE INTERRUPT", "BREAKPOINT", "OVERFLOW", "BOUND RANGE",
    "INVALID OPCODE", "FPU NOT PRESENT", "DOUBLE FAULT", "COPROCESSOR SEGMENT OVERRUN",
    "INVALID TASK STATE SEGMENT", "SEGMENT NOT PRESENT", "STACK SEGMENT FAULT",
    "GENERAL PROTECTION FAULT", "PAGE FAULT", "RESERVED", "X87 FLOATING POINT", "ALIGNMENT CHECK",
    "MACHINE CHECK", "SIMD", "VIRTUALIZATION", "CONTROL PROTECTION", "RESERVED", "RESERVED",
    "RESERVED", "RESERVED", "RESERVED", "RESERVED", "HYPERVISON INJECTION", "VMM COMMUNICATION",
    "SECURITY", "RESERVED"]

/-- The calls of `debug_num` in `debug_crash`, in its order. -/
def crashNums (data : DumpData) : List (String × BitVec 64) :=
  [("ERROR CODE: ", data.err), ("RAX: ", data.rax), ("RBX: ", data.rbx), ("RCX: ", data.rcx),
    ("RDX: ", data.rdx), ("RSP: ", data.rsp), ("RBP: ", data.rbp), ("RSI: ", data.rsi),
    ("RDI: ", data.rdi), ("R8: ", data.r8), ("R9: ", data.r9), ("R10: ", data.r10),
    ("R11: ", data.r11), ("R12: ", data.r12), ("R13: ", data.r13), ("R14: ", data.r14),
    ("R15: ", data.r15), ("RIP: ", data.rip), ("RFLAGS: ", data.rflags), ("CR0: ", data.cr0),
    ("CR2: ", data.cr2), ("CR3: ", data.cr3), ("CR4: ", data.cr4), ("CS: ", data.cs),
    ("SS: ", data.ss)]

def debugNums (calls : List (String × BitVec 64)) (s : DebugState δ) : Option (DebugState δ) :=
  calls.foldlM (fun s c => debugNum dev fuel ctx (literal c.1) c.2 s) s

/-- `debug_crash`, for the record behind its pointer. -/
def debugCrash (excep : BitVec 64) (data : DumpData) (s : DebugState δ) :
    Option (DebugState δ) := do
  let d ← printMsg dev fuel ctx (literal "CRASH") (literal "\x00") s.2
  let d ← if excep < 32 then
      printMsg dev fuel ctx (literal (errorMsg.getD excep.toNat "")) (literal " EXCEPTION") d
    else some d
  debugNums dev fuel ctx (crashNums data) (s.1, d)

/-- `exception_handler` up to its endless loop. -/
def exceptionHandler (m : Mem) (number dump : BitVec 64) (s : DebugState δ) :
    Option (DebugState δ) :=
  debugCrash dev fuel ctx number (readDump m dump) s

end functions

/-! ### Texts -/

/-- The text behind a pointer: the bytes before its first zero. -/
def IsText (text : BitVec 64 → BitVec 8) (l : List (BitVec 8)) : Prop :=
  ∃ n, TextEnds text n ∧ textBytes text n = l

theorem textEnds_unique {text : BitVec 64 → BitVec 8} {n n' : ℕ} (h : TextEnds text n)
    (h' : TextEnds text n') : n = n' := by
  rcases Nat.lt_trichotomy n n' with hlt | heq | hgt
  · exact absurd h.1 (h'.2 n hlt)
  · exact heq
  · exact absurd h'.1 (h.2 n' hgt)

theorem isText_of_getD {text : BitVec 64 → BitVec 8} {l : List (BitVec 8)} (h0 : 0 ∉ l)
    (hends : text (BitVec.ofNat 64 l.length) = 0)
    (htext : ∀ i, (hi : i < l.length) → text (BitVec.ofNat 64 i) = l[i]) : IsText text l := by
  refine ⟨l.length, ⟨hends, ?_⟩, ?_⟩
  · intro i hi
    rw [htext i hi]
    exact fun hz => h0 (hz ▸ List.getElem_mem hi)
  · unfold textBytes
    apply List.ext_getElem
    · simp
    · intro i hi hi'
      simp [htext i hi']

theorem literal_isText {s : String} (h0 : 0 ∉ ascii s) (hlen : (ascii s).length < 2 ^ 64) :
    IsText (literal s) (ascii s) := by
  apply isText_of_getD h0
  · unfold literal
    rw [BitVec.toNat_ofNat, Nat.mod_eq_of_lt hlen, List.getD_eq_default _ _ (Nat.le_refl _)]
  · intro i hi
    unfold literal
    rw [BitVec.toNat_ofNat, Nat.mod_eq_of_lt (by omega), List.getD_eq_getElem _ _ hi]

theorem hex_isText (num : BitVec 64) (buf : ℕ → BitVec 8) :
    IsText (fun i => hex num buf i.toNat) (hexText num) := by
  apply isText_of_getD (fun h => (ne_of_mem_hexText h).2 rfl)
  · rw [hexText_length, hex_apply]
    rfl
  · intro i hi
    have hi' : i < 18 := by simpa using hi
    have hnat : (BitVec.ofNat 64 i).toNat = i := Nat.mod_eq_of_lt (by omega)
    rw [hnat, hex_apply]
    match i with
    | 0 => rfl
    | 1 => rfl
    | j + 2 =>
        have hdigit : (hexText num)[j + 2] =
            upperHex.char (num.toNat / 16 ^ (16 - 1 - j) % 16) := by
          simp [hexText, Alphabet.numeral]
        rw [if_pos (by omega), Nat.add_sub_cancel, Stage2.Video.convertHex_eq num (by omega)]
        exact hdigit.symm

/-! ### What is sent -/

section sent

variable {δ : Type} {dev : Device δ} {fuel : ℕ} {ctx : SerialCtxs} {R : Prop} {I : δ → Prop}
  {log : δ → List (BitVec 8)}

theorem serialCnt_pos : 0 < SERIAL_CNT := by decide

/-- The port of the messages. -/
def debugPort (ctx : SerialCtxs) : BitVec 16 := (ctx ⟨0, serialCnt_pos⟩).port

/-- What is sent of a text: without a port, nothing. -/
def sent (ctx : SerialCtxs) (l : List (BitVec 8)) : List (BitVec 8) :=
  if debugPort ctx = 0 then [] else l

@[simp] theorem sent_nil (ctx : SerialCtxs) : sent ctx [] = [] := by
  unfold sent
  split_ifs <;> rfl

theorem sent_append (ctx : SerialCtxs) (l l' : List (BitVec 8)) :
    sent ctx (l ++ l') = sent ctx l ++ sent ctx l' := by
  unfold sent
  split_ifs <;> rfl

/-- A log of the bytes that go to the port. -/
def Logged (dev : Device δ) (fuel : ℕ) (ctx : SerialCtxs) (R : Prop) (I : δ → Prop)
    (log : δ → List (BitVec 8)) : Prop :=
  debugPort ctx ≠ 0 → ∀ chr, Adds R I log (serialPutc dev fuel (debugPort ctx) chr) [chr]

theorem printLoop_returns {port : BitVec 16} {text : BitVec 64 → BitVec 8} {n : ℕ}
    (hends : TextEnds text n) (hn : n ≤ fuel)
    (hputc : ∀ chr e, I e → ∃ e', serialPutc dev fuel port chr e = some e' ∧ I e') {d : δ}
    (hd : I d) : ∃ s, printLoop dev fuel port text d = some s := by
  obtain ⟨t, ht, -⟩ := whileLoop_of_count
    (fun k (s : BitVec 64 × δ) => ∃ i, i + k = n ∧ s.1 = BitVec.ofNat 64 i ∧ I s.2)
    (c := fun s : BitVec 64 × δ => text s.1 != 0)
    (f := fun s => (serialPutc dev fuel port (text s.1) s.2).map (fun d => (s.1 + 1, d)))
    (by
      rintro k ⟨j, e⟩ ⟨i, hik, hj, he⟩
      simp only at hj he
      obtain ⟨e', he', hI⟩ := hputc (text j) e he
      refine ⟨?_, (j + 1, e'), ?_, i + 1, by omega, ?_, hI⟩
      · subst hj
        simpa using hends.2 i (by omega)
      · simp only [he', Option.map_some]
      · rw [hj]
        exact (BitVec.ofNat_add i 1).symm)
    (by
      rintro ⟨j, e⟩ ⟨i, hin, hj, -⟩
      simp only at hj
      rw [Nat.add_zero] at hin
      subst hj hin
      simpa using hends.1)
    n (0, d) ⟨0, Nat.zero_add n, rfl, hd⟩
  exact ⟨t, whileLoop_mono hn ht⟩

theorem serialPrint_adds (h : Logged dev fuel ctx R I log) {text : BitVec 64 → BitVec 8}
    {l : List (BitVec 8)} (htext : IsText text l)
    (hlen : R → debugPort ctx ≠ 0 → l.length ≤ fuel) :
    Adds R I log (fun d => (serialPrint dev fuel 0 text ctx d).map Prod.snd) (sent ctx l) := by
  obtain ⟨n, hends, rfl⟩ := htext
  have hprint : ∀ d, (serialPrint dev fuel 0 text ctx d).map Prod.snd =
      if debugPort ctx = 0 then some d
      else (printLoop dev fuel (debugPort ctx) text d).map Prod.snd := by
    intro d
    unfold serialPrint
    rw [dif_pos (by decide)]
    change (if debugPort ctx = 0 then some (EPERM, d)
      else (printLoop dev fuel (debugPort ctx) text d).map (fun s => (0, s.2))).map Prod.snd = _
    split_ifs
    · rfl
    · rw [Option.map_map]
      rfl
  simp only [hprint]
  unfold sent
  by_cases hport : debugPort ctx = 0
  · simp only [if_pos hport]
    exact adds_some
  · simp only [if_neg hport]
    have hputc := h hport
    constructor
    · intro d t hd ht
      obtain ⟨s, hs, rfl⟩ := Option.map_eq_some_iff.mp ht
      obtain ⟨n', hends', hI, hlog⟩ := printLoop_bytes
        (P := fun bs e => I e ∧ log e = log d ++ bs)
        (by
          rintro bs chr e e' ⟨he, hbs⟩ hs'
          obtain ⟨he', hlog'⟩ := (hputc chr).adds e e' he hs'
          refine ⟨he', ?_⟩
          rw [hlog', hbs, List.append_assoc])
        ⟨hd, (List.append_nil _).symm⟩ hs
      rw [textEnds_unique hends hends']
      exact ⟨hI, hlog⟩
    · intro hR d hd
      have hn : n ≤ fuel := by simpa [textBytes] using hlen hR hport
      obtain ⟨s, hs⟩ := printLoop_returns (I := I) hends hn
        (by
          intro chr e he
          obtain ⟨e', he'⟩ := (hputc chr).returns hR e he
          exact ⟨e', he', ((hputc chr).adds e e' he he').1⟩) hd
      exact ⟨s.2, by rw [hs]; rfl⟩

theorem printMsg_adds (h : Logged dev fuel ctx R I log) {header msg : BitVec 64 → BitVec 8}
    {l l' : List (BitVec 8)} (hl : IsText header l) (hl' : IsText msg l')
    (hlen : R → debugPort ctx ≠ 0 → (l ++ l').length + 1 ≤ fuel) :
    Adds R I log (printMsg dev fuel ctx header msg) (sent ctx (logText [l ++ l'])) := by
  have hnewline : IsText (literal "\n") [newline] := literal_isText (by decide) (by decide)
  have hprog : printMsg dev fuel ctx header msg = fun d =>
      ((serialPrint dev fuel 0 header ctx d).map Prod.snd).bind (fun d =>
        ((serialPrint dev fuel 0 msg ctx d).map Prod.snd).bind (fun d =>
          (serialPrint dev fuel 0 (literal "\n") ctx d).map Prod.snd)) := by
    funext d
    unfold printMsg
    simp only [Option.map_eq_bind, Function.comp_def, Option.bind_eq_bind, Option.pure_def,
      Option.bind_assoc, Option.bind_some]
  have hsent : sent ctx (logText [l ++ l']) =
      sent ctx l ++ (sent ctx l' ++ sent ctx [newline]) := by
    rw [← sent_append, ← sent_append]
    simp
  rw [hprog, hsent]
  rw [List.length_append] at hlen
  refine (serialPrint_adds h hl ?_).bind ((serialPrint_adds h hl' ?_).bind
    (serialPrint_adds h hnewline ?_))
  · intro hR hport
    have := hlen hR hport
    omega
  · intro hR hport
    have := hlen hR hport
    omega
  · intro hR hport
    have := hlen hR hport
    simp only [List.length_singleton]
    omega

theorem debugNum_adds (h : Logged dev fuel ctx R I log) {msg : BitVec 64 → BitVec 8}
    {l : List (BitVec 8)} (hl : IsText msg l) (num : BitVec 64)
    (hlen : R → debugPort ctx ≠ 0 → l.length + 19 ≤ fuel) :
    Adds R (fun s : DebugState δ => I s.2) (fun s => log s.2) (debugNum dev fuel ctx msg num)
      (sent ctx (logText [numbered l num])) := by
  have hmsg : ∀ s : DebugState δ, Adds R I log
      (printMsg dev fuel ctx msg (fun i => hex num s.1 i.toNat))
      (sent ctx (logText [numbered l num])) := by
    intro s
    refine printMsg_adds h hl (hex_isText num s.1) (fun hR hport => ?_)
    have := hlen hR hport
    rw [List.length_append, hexText_length]
    omega
  constructor
  · intro s t hs ht
    obtain ⟨d, hd, rfl⟩ := Option.map_eq_some_iff.mp ht
    exact (hmsg s).adds s.2 d hs hd
  · intro hR s hs
    obtain ⟨d, hd⟩ := (hmsg s).returns hR s.2 hs
    refine ⟨(hex num s.1, d), ?_⟩
    unfold debugNum
    simp only [hd, Option.map_some]

theorem adds_buffer {f : δ → Option δ} {l : List (BitVec 8)} (h : Adds R I log f l) :
    Adds R (fun s : DebugState δ => I s.2) (fun s => log s.2)
      (fun s => (f s.2).map (fun d => (s.1, d))) l := by
  constructor
  · intro s t hs ht
    obtain ⟨d, hd, rfl⟩ := Option.map_eq_some_iff.mp ht
    exact h.adds s.2 d hs hd
  · intro hR s hs
    obtain ⟨d, hd⟩ := h.returns hR s.2 hs
    exact ⟨(s.1, d), by rw [hd]; rfl⟩

/-! ### Crashes -/

def excepLine (excep : BitVec 64) : List (BitVec 8) :=
  ascii (errorMsg.getD excep.toNat "") ++ ascii " EXCEPTION"

def crashHead : List (BitVec 8) := ascii "CRASH"

/-- The lines of a report. -/
def crashLines (excep : BitVec 64) (data : DumpData) : List (List (BitVec 8)) :=
  [crashHead] ++ (if excep < 32 then [excepLine excep] else []) ++
    (crashNums data).map (fun c => numbered (ascii c.1) c.2)

/-- The strings in the crash handler are texts, of at most 29 bytes. -/
theorem errorMsg_text {s : String} (h : s ∈ errorMsg) :
    0 ∉ ascii s ∧ (ascii s).length ≤ 29 := by
  have hall : ∀ s ∈ errorMsg, 0 ∉ ascii s ∧ (ascii s).length ≤ 29 := by decide
  exact hall s h

theorem crashNums_text (data : DumpData) {c : String × BitVec 64} (h : c ∈ crashNums data) :
    0 ∉ ascii c.1 ∧ (ascii c.1).length ≤ 12 ∧ newline ∉ ascii c.1 := by
  have hlabels : (crashNums data).map Prod.fst = (crashNums (.ofWords fun _ => 0)).map Prod.fst :=
    rfl
  have hall : ∀ s ∈ (crashNums (.ofWords fun _ => 0)).map Prod.fst,
      0 ∉ ascii s ∧ (ascii s).length ≤ 12 ∧ newline ∉ ascii s := by decide
  exact hall c.1 (hlabels ▸ List.mem_map_of_mem h)

theorem sent_lines {β : Type} (ctx : SerialCtxs) (line : β → List (BitVec 8)) (bs : List β) :
    bs.flatMap (fun b => sent ctx (logText [line b])) = sent ctx (logText (bs.map line)) := by
  induction bs with
  | nil => simp
  | cons b bs ih =>
      rw [List.flatMap_cons, ih, ← sent_append, ← logText_append]
      rfl

theorem debugNums_adds (h : Logged dev fuel ctx R I log) (data : DumpData)
    (hfuel : R → debugPort ctx ≠ 0 → 64 ≤ fuel) :
    Adds R (fun s : DebugState δ => I s.2) (fun s => log s.2)
      (debugNums dev fuel ctx (crashNums data))
      (sent ctx (logText ((crashNums data).map (fun c => numbered (ascii c.1) c.2)))) := by
  rw [← sent_lines]
  unfold debugNums
  apply Adds.foldlM
  intro c hc
  obtain ⟨h0, hlen, -⟩ := crashNums_text data hc
  refine debugNum_adds h (literal_isText h0 (by omega)) c.2 (fun hR hport => ?_)
  have := hfuel hR hport
  omega

/-- **The report of a crash.** -/
theorem debugCrash_adds (h : Logged dev fuel ctx R I log) (excep : BitVec 64) (data : DumpData)
    (hfuel : R → debugPort ctx ≠ 0 → 64 ≤ fuel) :
    Adds R (fun s : DebugState δ => I s.2) (fun s => log s.2) (debugCrash dev fuel ctx excep data)
      (sent ctx (logText (crashLines excep data))) := by
  have hhead : Adds R I log (printMsg dev fuel ctx (literal "CRASH") (literal "\x00"))
      (sent ctx (logText [crashHead])) := by
    refine printMsg_adds h (literal_isText (s := "CRASH") (by decide) (by decide))
      ⟨0, ⟨by decide, fun _ hi => absurd hi (Nat.not_lt_zero _)⟩, rfl⟩ (fun hR hport => ?_)
    have hlen : (ascii "CRASH" ++ []).length + 1 = 6 := by decide
    have := hfuel hR hport
    omega
  have hname : Adds R I log (fun d => if excep < 32 then
      printMsg dev fuel ctx (literal (errorMsg.getD excep.toNat "")) (literal " EXCEPTION") d
      else some d) (sent ctx (logText (if excep < 32 then [excepLine excep] else []))) := by
    by_cases hx : excep < 32
    · simp only [if_pos hx]
      have hlt : excep.toNat < errorMsg.length := hx
      have hmem : errorMsg.getD excep.toNat "" ∈ errorMsg := by
        rw [List.getD_eq_getElem _ _ hlt]
        exact List.getElem_mem hlt
      obtain ⟨h0, hlen⟩ := errorMsg_text hmem
      refine printMsg_adds h (literal_isText h0 (by omega))
        (literal_isText (s := " EXCEPTION") (by decide) (by decide)) (fun hR hport => ?_)
      have hsuffix : (ascii " EXCEPTION").length = 10 := by decide
      have := hfuel hR hport
      rw [List.length_append, hsuffix]
      omega
    · simp only [if_neg hx]
      rw [logText_nil, sent_nil]
      exact adds_some
  have hprog : debugCrash dev fuel ctx excep data = fun s =>
      ((printMsg dev fuel ctx (literal "CRASH") (literal "\x00") s.2).map (fun d => (s.1, d))).bind
        (fun s => (((if excep < 32 then
          printMsg dev fuel ctx (literal (errorMsg.getD excep.toNat "")) (literal " EXCEPTION") s.2
          else some s.2)).map (fun d => (s.1, d))).bind
            (debugNums dev fuel ctx (crashNums data))) := by
    funext s
    unfold debugCrash
    simp only [Option.bind_map, Function.comp_def, Option.bind_eq_bind]
    by_cases hx : excep < 32
    · simp only [if_pos hx]
    · simp only [if_neg hx]
  unfold crashLines
  rw [hprog, logText_append, logText_append, sent_append, sent_append, List.append_assoc]
  exact (adds_buffer hhead).bind ((adds_buffer hname).bind (debugNums_adds h data hfuel))

end sent

end Ziemniak.Kernel
