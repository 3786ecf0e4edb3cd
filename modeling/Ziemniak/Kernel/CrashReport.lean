import Ziemniak.Kernel.Debug
import Mathlib.Algebra.Order.BigOperators.Group.List

/-! # Crash reports

What somebody at the other end of the serial line learns.  `readLog` takes the text on the line
apart: the messages before a crash, and the report with the name of the exception and the 25
registers.  `crash_reported` follows a kernel from its successful `debug_init` through any messages
to an exception: whatever the device, the line reads as these messages and the registers of the
interrupted code; for the vectors 21 and 29 the words of the frame are one field too low
(`reported`). -/

namespace Ziemniak.Kernel

open BareMetal

variable {δ : Type}

/-! ### Messages -/

/-- A pointer to a string, and the characters of the string. -/
structure Message where
  text : BitVec 64 → BitVec 8
  chars : List (BitVec 8)
  isText : IsText text chars

inductive DebugCall
  | info (msg : Message)
  | warn (msg : Message)
  | err (msg : Message)
  | num (msg : Message) (num : BitVec 64)

namespace DebugCall

def run (dev : Device δ) (fuel : ℕ) (ctx : SerialCtxs) : DebugCall → DebugState δ →
    Option (DebugState δ)
  | info msg, s => (debugInfo dev fuel ctx msg.text s.2).map (fun d => (s.1, d))
  | warn msg, s => (debugWarn dev fuel ctx msg.text s.2).map (fun d => (s.1, d))
  | err msg, s => (debugErr dev fuel ctx msg.text s.2).map (fun d => (s.1, d))
  | num msg v, s => debugNum dev fuel ctx msg.text v s

def line : DebugCall → List (BitVec 8)
  | info msg => ascii "INFO: " ++ msg.chars
  | warn msg => ascii "WARN: " ++ msg.chars
  | err msg => ascii "ERR: " ++ msg.chars
  | num msg v => numbered msg.chars v

variable {dev : Device δ} {fuel : ℕ} {ctx : SerialCtxs} {R : Prop} {I : δ → Prop}
  {log : δ → List (BitVec 8)}

theorem run_adds (h : Logged dev fuel ctx R I log) (c : DebugCall)
    (hlen : R → debugPort ctx ≠ 0 → c.line.length + 1 ≤ fuel) :
    Adds R (fun s : DebugState δ => I s.2) (fun s => log s.2) (c.run dev fuel ctx)
      (sent ctx (logText [c.line])) := by
  cases c with
  | info msg =>
      have hheader : IsText (literal "INFO: ") (ascii "INFO: ") :=
        literal_isText (by decide) (by decide)
      exact adds_buffer (printMsg_adds h hheader msg.isText hlen)
  | warn msg =>
      have hheader : IsText (literal "WARN: ") (ascii "WARN: ") :=
        literal_isText (by decide) (by decide)
      exact adds_buffer (printMsg_adds h hheader msg.isText hlen)
  | err msg =>
      have hheader : IsText (literal "ERR: ") (ascii "ERR: ") :=
        literal_isText (by decide) (by decide)
      exact adds_buffer (printMsg_adds h hheader msg.isText hlen)
  | num msg v =>
      refine debugNum_adds h msg.isText v (fun hR hport => ?_)
      have := hlen hR hport
      simp only [line, numbered, List.length_append, hexText_length] at this
      omega

theorem line_ne_crashHead (c : DebugCall) : c.line ≠ crashHead := by
  intro h
  have hlen : crashHead.length = 5 := by decide
  have hhead : crashHead.head? = some 0x43 := by decide
  rw [← h] at hhead
  cases c with
  | info msg => exact absurd (Option.some.inj hhead) (by decide)
  | warn msg => exact absurd (Option.some.inj hhead) (by decide)
  | err msg => exact absurd (Option.some.inj hhead) (by decide)
  | num msg v =>
      have := congrArg List.length h
      simp only [line, numbered, List.length_append, hexText_length, hlen] at this
      omega

end DebugCall

/-- Messages in a row. -/
def runCalls (dev : Device δ) (fuel : ℕ) (ctx : SerialCtxs) (calls : List DebugCall)
    (s : DebugState δ) : Option (DebugState δ) :=
  calls.foldlM (fun s c => c.run dev fuel ctx s) s

/-- Rounds enough for the messages and a report. -/
def callsFuel (calls : List DebugCall) : ℕ := 64 + (calls.map fun c => c.line.length).sum

theorem length_lt_callsFuel {calls : List DebugCall} {c : DebugCall} (hc : c ∈ calls) :
    c.line.length + 1 ≤ callsFuel calls := by
  have := List.le_sum_of_mem (List.mem_map_of_mem (f := fun c : DebugCall => c.line.length) hc)
  unfold callsFuel
  omega

theorem runCalls_adds {dev : Device δ} {fuel : ℕ} {ctx : SerialCtxs} {R : Prop} {I : δ → Prop}
    {log : δ → List (BitVec 8)} (h : Logged dev fuel ctx R I log) {calls : List DebugCall}
    (hcalls : R → debugPort ctx ≠ 0 → callsFuel calls ≤ fuel) :
    Adds R (fun s : DebugState δ => I s.2) (fun s => log s.2) (runCalls dev fuel ctx calls)
      (sent ctx (logText (calls.map DebugCall.line))) := by
  rw [← sent_lines]
  exact Adds.foldlM fun c hc => c.run_adds h
    (fun hR hport => (length_lt_callsFuel hc).trans (hcalls hR hport))

/-! ### Reading a log -/

/-- The vectors that a line names. -/
def namedVectors (l : List (BitVec 8)) : List ℕ :=
  (List.range 32).filter (fun n => excepLine (BitVec.ofNat 64 n) == l)

structure Report where
  vectors : List ℕ
  data : DumpData
deriving DecidableEq, Repr

/-- The report behind its head: a line without a number names the exception, the others are the
registers. -/
def readReport (ls : List (List (BitVec 8))) : Option Report :=
  let nums := ls.filterMap readNumbered
  let num := fun label : String => nums.lookup (ascii label)
  do
    return {
      vectors := ((ls.find? (fun l => (readNumbered l).isNone)).map namedVectors).getD []
      data :=
        { cr4 := ← num "CR4: ", cr3 := ← num "CR3: ", cr2 := ← num "CR2: ", cr0 := ← num "CR0: "
          r15 := ← num "R15: ", r14 := ← num "R14: ", r13 := ← num "R13: ", r12 := ← num "R12: "
          r11 := ← num "R11: ", r10 := ← num "R10: ", r9 := ← num "R9: ", r8 := ← num "R8: "
          rbp := ← num "RBP: ", rdi := ← num "RDI: ", rsi := ← num "RSI: ", rdx := ← num "RDX: "
          rcx := ← num "RCX: ", rbx := ← num "RBX: ", rax := ← num "RAX: "
          err := ← num "ERROR CODE: ", rip := ← num "RIP: ", cs := ← num "CS: "
          rflags := ← num "RFLAGS: ", rsp := ← num "RSP: ", ss := ← num "SS: " } }

/-- The messages, and the report of a crash behind them. -/
def readLog (text : List (BitVec 8)) : List (List (BitVec 8)) × Option Report :=
  let ls := logLines text
  (ls.takeWhile (· != crashHead), readReport (ls.dropWhile (· != crashHead)).tail)

theorem readNumbered_excepLine {excep : BitVec 64} (h : excep < 32) :
    readNumbered (excepLine excep) = none ∧ newline ∉ excepLine excep := by
  have hall : ∀ s ∈ errorMsg, readNumbered (ascii s ++ ascii " EXCEPTION") = none ∧
      newline ∉ ascii s ++ ascii " EXCEPTION" := by decide
  have hlt : excep.toNat < errorMsg.length := h
  have hmem : errorMsg.getD excep.toNat "" ∈ errorMsg := by
    rw [List.getD_eq_getElem _ _ hlt]
    exact List.getElem_mem hlt
  exact hall _ hmem

/-- The vectors with the same name. -/
def reservedVectors : List ℕ := [15, 22, 23, 24, 25, 26, 27, 31]

theorem namedVectors_excepLine {n : ℕ} (hn : n < 32) :
    namedVectors (excepLine (BitVec.ofNat 64 n)) =
      if n ∈ reservedVectors then reservedVectors else [n] := by
  have hall : ∀ n < 32, namedVectors (excepLine (BitVec.ofNat 64 n)) =
      if n ∈ reservedVectors then reservedVectors else [n] := by decide +kernel
  exact hall n hn

theorem filterMap_numbered (calls : List (String × BitVec 64)) :
    (calls.map (fun c => numbered (ascii c.1) c.2)).filterMap readNumbered =
      calls.map (fun c => (ascii c.1, c.2)) := by
  induction calls with
  | nil => rfl
  | cons c calls ih =>
      rw [List.map_cons, List.filterMap_cons, readNumbered_numbered, ih]
      rfl

/-- **Reading a report.** -/
theorem readReport_crashLines {n : ℕ} (hn : n < 32) (data : DumpData) :
    readReport (crashLines (BitVec.ofNat 64 n) data).tail =
      some ⟨if n ∈ reservedVectors then reservedVectors else [n], data⟩ := by
  have hx : BitVec.ofNat 64 n < 32 := by bv_omega
  have htail : (crashLines (BitVec.ofNat 64 n) data).tail =
      excepLine (BitVec.ofNat 64 n) ::
        (crashNums data).map (fun c => numbered (ascii c.1) c.2) := by
    unfold crashLines
    rw [if_pos hx]
    rfl
  have hname := (readNumbered_excepLine hx).1
  unfold readReport
  rw [htail, List.filterMap_cons, hname, filterMap_numbered, List.find?_cons, hname,
    Option.isNone_none, ← namedVectors_excepLine hn]
  simp [crashNums, ascii, List.lookup_cons]

theorem mem_crashLines {n : ℕ} (hn : n < 32) {data : DumpData} {l : List (BitVec 8)}
    (hl : l ∈ crashLines (BitVec.ofNat 64 n) data) : newline ∉ l := by
  have hx : BitVec.ofNat 64 n < 32 := by bv_omega
  unfold crashLines at hl
  rw [if_pos hx, List.mem_append, List.mem_append, List.mem_singleton, List.mem_singleton] at hl
  rcases hl with (rfl | rfl) | hl
  · decide
  · exact (readNumbered_excepLine hx).2
  · obtain ⟨c, hc, rfl⟩ := List.mem_map.mp hl
    exact not_mem_numbered (crashNums_text data hc).2.2 c.2

/-- **Reading a log** with a report at its end. -/
theorem readLog_crash {calls : List DebugCall} (hcalls : ∀ c ∈ calls, newline ∉ c.line) {n : ℕ}
    (hn : n < 32) (data : DumpData) :
    readLog (logText (calls.map DebugCall.line ++ crashLines (BitVec.ofNat 64 n) data)) =
      (calls.map DebugCall.line,
        some ⟨if n ∈ reservedVectors then reservedVectors else [n], data⟩) := by
  have hlines : ∀ l ∈ calls.map DebugCall.line ++ crashLines (BitVec.ofNat 64 n) data,
      newline ∉ l := by
    intro l hl
    rcases List.mem_append.mp hl with hl | hl
    · obtain ⟨c, hc, rfl⟩ := List.mem_map.mp hl
      exact hcalls c hc
    · exact mem_crashLines hn hl
  have hbefore : ∀ l ∈ calls.map DebugCall.line, (l != crashHead) = true := by
    intro l hl
    obtain ⟨c, -, rfl⟩ := List.mem_map.mp hl
    exact bne_iff_ne.mpr c.line_ne_crashHead
  have hhead : crashLines (BitVec.ofNat 64 n) data =
      crashHead :: (crashLines (BitVec.ofNat 64 n) data).tail := rfl
  have hstop : (crashHead != crashHead) = false := bne_self_eq_false crashHead
  unfold readLog
  simp only [logLines_logText hlines]
  rw [List.takeWhile_append_of_pos hbefore, List.dropWhile_append_of_pos hbefore, hhead,
    List.takeWhile_cons_of_neg (by simp), List.dropWhile_cons_of_neg (by simp), List.append_nil,
    List.tail_cons, readReport_crashLines hn]

/-! ### The line -/

/-- The port becomes ready within `k` more reads, in every state of the device. -/
def Prompt (dev : Device δ) (port : BitVec 16) (k : ℕ) : Prop :=
  ∀ d, ∃ r, dev.poll k (port + LINE_STS_REG) (fun sts => !isTxEmpty sts) d = some r

theorem logged_line {dev : Device δ} {fuel : ℕ} {ctx : SerialCtxs} {R : Prop}
    (h : R → Prompt dev (debugPort ctx) fuel) :
    Logged dev.wired fuel ctx R (fun d => d.2.Transmits (debugPort ctx))
      (fun d => d.2.line (debugPort ctx)) := by
  intro _ chr
  have hport : debugPort ctx + DATA_REG = debugPort ctx := by simp [DATA_REG]
  constructor
  · intro d t hd ht
    unfold serialPutc at ht
    obtain ⟨⟨sts, e⟩, hpoll, hout⟩ := Option.bind_eq_some_iff.mp ht
    obtain rfl := Option.some.inj hout
    have hsame : e.2 = d.2 := Device.wired_poll hpoll
    rw [← hsame] at hd
    simp only [← hsame, hport]
    exact ⟨hd.write chr, hd.write_line chr⟩
  · intro hR d _
    obtain ⟨r, hr⟩ := h hR d.1
    rw [← Device.wired_poll_map] at hr
    obtain ⟨⟨sts, e⟩, hpoll, -⟩ := Option.map_eq_some_iff.mp hr
    exact ⟨_, Option.bind_eq_some_iff.mpr ⟨(sts, e), hpoll, rfl⟩⟩

/-- The self-test puts nothing on the line: its first byte goes to the divisor, its second one
stays in the loopback. -/
theorem line_initWrites (u : Uart) (port : BitVec 16) :
    (u.writeAll (initWrites port)).line port = u.line port := by
  have hdata : port + DATA_REG = port := by simp [DATA_REG]
  have hlow : port + DIV_LOW_REG = port := by simp [DIV_LOW_REG]
  simp only [Uart.writeAll, initWrites, List.foldl_cons, List.foldl_nil, hdata, hlow]
  rw [Uart.line_write_of_not, Uart.line_write_of_ne, Uart.line_write_of_ne, Uart.line_write_of_ne,
    Uart.line_write_of_ne, Uart.line_write_of_ne, Uart.line_write_of_not, Uart.line_write_of_ne,
    Uart.line_write_of_ne]
  · simp [INTEN_REG]
  · simp [LINE_CTL_REG]
  · intro ht
    exact absurd ht.1 (by simp [LINE_CTL_REG, DLAB])
  · simp [DIV_HIGH_REG]
  · simp [LINE_CTL_REG]
  · simp [INT_FIFO_REG]
  · simp [ MODEM_CTL_REG]
  · simp [ MODEM_CTL_REG]
  · intro ht
    exact absurd ht.2 (by simp [ MODEM_CTL_REG])

/-- What a successful `debug_init` leaves: a port that transmits, and a line as it was. -/
theorem debugInit_line {dev : Device δ} {m : Mem} {ctx : SerialCtxs} {d : δ × Uart}
    (h : (debugInit dev.wired ctx m d).1 = 0) :
    debugPort (debugInit dev.wired ctx m d).2.1 = bdaComs m 0 ∧ bdaComs m 0 ≠ 0 ∧
      (debugInit dev.wired ctx m d).2.2.2.Transmits (bdaComs m 0) ∧
      (debugInit dev.wired ctx m d).2.2.2.line (bdaComs m 0) = d.2.line (bdaComs m 0) := by
  have hready := serialInit_ready h
  unfold debugInit at h ⊢
  have hio : ( EIO : ℕ) ≠ 0 := by decide
  obtain herr | ⟨-, hport, hid, hctx⟩ := serialInit_result dev.wired m 0 0 ctx d
  · exact absurd h herr.1
  · refine ⟨?_, hport, hready.transmits, ?_⟩
    · unfold debugPort
      rw [hctx]
      change (Function.update ctx ⟨0, hid⟩ _ ⟨0, hid⟩).port = _
      rw [Function.update_self]
      rfl
    · rw [serialInit_eq dev.wired m 0 0 ctx d hid hport] at h ⊢
      split_ifs at h ⊢
      · exact absurd h hio
      · have hmodem : bdaComs m 0 + MODEM_CTL_REG ≠ bdaComs m 0 := by simp [ MODEM_CTL_REG]
        have htest : (selfTest dev.wired (bdaComs m 0) d).2.2.line (bdaComs m 0) =
            d.2.line (bdaComs m 0) := by rw [selfTest_wired, line_initWrites]
        rw [← htest]
        change (Uart.write _ _ _).line _ = _
        exact Uart.line_write_of_ne hmodem _

/-- **What arrives** after a successful `debug_init`: what a program sends, and all of it when the
port keeps getting ready. -/
theorem debugInit_arrives {dev : Device δ} {m : Mem} {ctx : SerialCtxs} {d : δ × Uart}
    {o : ℕ × SerialCtxs × (δ × Uart)} (ho : o = debugInit dev.wired ctx m d) (hinit : o.1 = 0)
    {f : ℕ → DebugState (δ × Uart) → Option (DebugState (δ × Uart))} {l : List (BitVec 8)} {n : ℕ}
    (hf : ∀ fuel R, Logged dev.wired fuel o.2.1 R (fun d => d.2.Transmits (debugPort o.2.1))
      (fun d => d.2.line (debugPort o.2.1)) → (R → debugPort o.2.1 ≠ 0 → n ≤ fuel) →
      Adds R (fun s => s.2.2.Transmits (debugPort o.2.1)) (fun s => s.2.2.line (debugPort o.2.1))
        (f fuel) (sent o.2.1 l)) (buf : ℕ → BitVec 8) :
    (∀ fuel s, f fuel (buf, o.2.2) = some s →
      s.2.2.line (bdaComs m 0) = d.2.line (bdaComs m 0) ++ l) ∧
    ∀ k, Prompt dev (bdaComs m 0) k → ∃ K, ∀ fuel ≥ K, ∃ s, f fuel (buf, o.2.2) = some s := by
  subst ho
  obtain ⟨hport, hne, htransmits, hline⟩ := debugInit_line hinit
  generalize debugInit dev.wired ctx m d = o at *
  rw [← hport] at htransmits
  constructor
  · intro fuel s hs
    have hadds := hf fuel False (logged_line False.elim) False.elim
    obtain ⟨-, hlog⟩ := hadds.adds (buf, o.2.2) s htransmits hs
    unfold sent at hlog
    rw [hport, if_neg hne, hline] at hlog
    exact hlog
  · intro k hk
    refine ⟨k + n, ?_⟩
    intro fuel hfuel
    have hprompt : Prompt dev (debugPort o.2.1) fuel := by
      intro e
      obtain ⟨r, hr⟩ := hk e
      rw [hport]
      exact ⟨r, whileLoop_mono (by omega) hr⟩
    have hadds := hf fuel True (logged_line fun _ => hprompt) (fun _ _ => by omega)
    exact hadds.returns trivial (buf, o.2.2) htransmits

/-! ### From the messages to the report -/

/-- Messages, and then an exception in whose handler the processor is `e`. -/
def crashRun (dev : Device δ) (fuel : ℕ) (ctx : SerialCtxs) (calls : List DebugCall) (e : Cpu)
    (s : DebugState δ) : Option (DebugState δ) :=
  (runCalls dev fuel ctx calls s).bind
    (exceptionHandler dev fuel ctx e.mem (e.gpr .rdi) (e.gpr .rsi))

theorem crashRun_adds {dev : Device δ} {fuel : ℕ} {ctx : SerialCtxs} {R : Prop} {I : δ → Prop}
    {log : δ → List (BitVec 8)} (h : Logged dev fuel ctx R I log) {calls : List DebugCall}
    (hcalls : R → debugPort ctx ≠ 0 → callsFuel calls ≤ fuel) (e : Cpu) :
    Adds R (fun s : DebugState δ => I s.2) (fun s => log s.2) (crashRun dev fuel ctx calls e)
      (sent ctx (logText (calls.map DebugCall.line ++
        crashLines (e.gpr .rdi) (readDump e.mem (e.gpr .rsi))))) := by
  rw [logText_append, sent_append]
  exact (runCalls_adds h hcalls).bind (debugCrash_adds h _ _
    (fun hR hport => (Nat.le_add_right 64 _).trans (hcalls hR hport)))

/-- What the report says: without an error code of its own, the frame of the vectors 21 and 29 is
read one word too low. -/
def reported (n : ℕ) (c : Cpu) (rip err : BitVec 64) : DumpData :=
  if n = 21 ∨ n = 29 then
    { interrupted n c rip err with
      err := 0
      rip := err
      cs := rip
      rflags := c.cs.setWidth 64
      rsp := c.rflags
      ss := c.gpr .rsp }
  else interrupted n c rip err

theorem readDump_reported {n : ℕ} (hn : n < 32) (c : Cpu) (rip sp err ret : BitVec 64) :
    readDump (excEntry n c rip sp err ret).mem ((excEntry n c rip sp err ret).gpr .rsi) =
      reported n c rip err := by
  rw [readDump_excEntry hn]
  unfold errWords reported
  by_cases hx : n = 21 ∨ n = 29
  · rw [if_pos hx, if_pos hx]
    rfl
  · rw [if_neg hx, if_neg hx]
    rfl

/-- **From an exception to the line.**  After a successful `debug_init` the line reads as the
messages and the registers, whatever the device and the interrupted code; and when the port keeps
getting ready, everything is sent. -/
theorem crash_reported {dev : Device δ} {m : Mem} {ctx : SerialCtxs} {d : δ × Uart}
    (hinit : (debugInit dev.wired ctx m d).1 = 0) {calls : List DebugCall}
    (hcalls : ∀ c ∈ calls, newline ∉ c.line) {n : ℕ} (hn : n < 32) (c : Cpu)
    (rip sp err ret : BitVec 64) (buf : ℕ → BitVec 8) :
    (∀ fuel s, crashRun dev.wired fuel (debugInit dev.wired ctx m d).2.1 calls
        (excEntry n c rip sp err ret) (buf, (debugInit dev.wired ctx m d).2.2) = some s →
      ∃ text, s.2.2.line (bdaComs m 0) = d.2.line (bdaComs m 0) ++ text ∧
        readLog text = (calls.map DebugCall.line, some
          ⟨if n ∈ reservedVectors then reservedVectors else [n], reported n c rip err⟩)) ∧
    ∀ k, Prompt dev (bdaComs m 0) k → ∃ K, ∀ fuel ≥ K, ∃ s,
      crashRun dev.wired fuel (debugInit dev.wired ctx m d).2.1 calls
        (excEntry n c rip sp err ret) (buf, (debugInit dev.wired ctx m d).2.2) = some s := by
  obtain ⟨harrives, hreturns⟩ := debugInit_arrives (n := callsFuel calls) rfl hinit
    (fun fuel R h hfuel => crashRun_adds h hfuel (excEntry n c rip sp err ret)) buf
  refine ⟨?_, hreturns⟩
  intro fuel s hs
  have hlog := harrives fuel s hs
  rw [(excEntry_stack hn c rip sp err ret).1, readDump_reported hn] at hlog
  exact ⟨_, hlog, readLog_crash hcalls hn _⟩

/-- A string of the program. -/
def Message.ofLiteral (s : String) (h0 : 0 ∉ ascii s) (hlen : (ascii s).length < 2 ^ 64) :
    Message where
  text := literal s
  chars := ascii s
  isText := literal_isText h0 hlen

/-- What `main` says when everything is set up. -/
def kernelStarted : DebugCall :=
  .info (.ofLiteral "Kernel started" (by decide) (by decide))

abbrev echoInit : ℕ × SerialCtxs × (BitVec 8 × Uart) :=
  debugInit echoSerial.wired (fun _ => { rx_cb := 0, port := 0 }) onePort
    (0, { reg := fun _ => 0, line := fun _ => [] })

theorem prompt_echo : Prompt echoSerial 0x3F8 0 := by
  have hready : ∀ d, (!isTxEmpty (echoSerial.inb (0x3F8 + LINE_STS_REG) d).1) = false := by
    decide
  intro d
  exact ⟨_, Device.poll_of_not_busy (hready d) 0⟩

/-- A general protection fault after the start of the kernel. -/
theorem crash_reported_protection : ∃ fuel s text,
    crashRun echoSerial.wired fuel echoInit.2.1 [kernelStarted] (excEntry 13 kernelCpu
      0xFFFFFFFF80001000 0xFFFFFFFFFFFFF000 0x10 0xFFFFFFFF80002000) (fun _ => 0, echoInit.2.2) =
        some s ∧ s.2.2.line 0x3F8 = [] ++ text ∧
      readLog text = ([ascii "INFO: Kernel started"],
        some ⟨[13], interrupted 13 kernelCpu 0xFFFFFFFF80001000 0x10⟩) := by
  obtain ⟨hread, hreturns⟩ := @crash_reported _ echoSerial onePort
    (fun _ => { rx_cb := 0, port := 0 }) (0, { reg := fun _ => 0, line := fun _ => [] })
    (by decide) [kernelStarted] (by decide) 13 (by decide) kernelCpu 0xFFFFFFFF80001000
    0xFFFFFFFFFFFFF000 0x10 0xFFFFFFFF80002000 (fun _ => 0)
  have hport : bdaComs onePort 0 = 0x3F8 := by decide
  obtain ⟨K, hK⟩ := hreturns 0 (hport ▸ prompt_echo)
  obtain ⟨s, hs⟩ := hK K le_rfl
  obtain ⟨text, hline, htext⟩ := hread K s hs
  exact ⟨K, s, text, hs, hline, htext⟩

end Ziemniak.Kernel
