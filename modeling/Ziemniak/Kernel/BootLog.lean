import Ziemniak.Kernel.CrashReport
import Ziemniak.Kernel.Descriptors
import Ziemniak.Kernel.MemoryMap
import Ziemniak.Kernel.Peek
import Ziemniak.Stage2.E820

/-! # The start of the kernel

`main` of the kernel with everything it prints.  The messages of `mm_init` stand between its rounds;
`mmInitLogged_eq` takes the two apart, so what is printed has no influence on the memory manager.

`bootLog_free` is about the whole way from the map of the BIOS to the serial line: the ranges that
arrive are the usable memory without the pages of the loaded kernel.  `kernelMain_silent` is about a
machine whose port does not pass its test. -/

namespace Ziemniak.Kernel

open BareMetal

variable {δ : Type}

/-! ### The memory manager with its messages -/

/-- `get_req` of `bitmap_allocator`. -/
def getReq (_max_addr : BitVec 64) : BitVec 64 := 0

/-- The entry is added to the free memory. -/
def Memmap.Valid (e : Memmap) : Prop := e.type = FREE_RAM ∧ 0x100000 ≤ e.base

instance : DecidablePred Memmap.Valid := fun _ => inferInstanceAs (Decidable (_ ∧ _))

section functions

variable (dev : Device δ) (fuel : ℕ) (ctx : SerialCtxs)

/-- One round of `mm_init`. -/
def mmInitRound (load_buf load_size : BitVec 64) (s : MmInit × DebugState δ) (e : Memmap) :
    Option (MmInit × DebugState δ) := do
  let e' := initEntry load_buf load_size e
  let d ← if e'.Valid then do
      let d ← debugNum dev fuel ctx (literal "Base: ") e'.base s.2
      debugNum dev fuel ctx (literal "End: ") e'.end_ d
    else some s.2
  return (mmInitStep load_buf load_size s.1 e, d)

def mmInitLogged (peek_entry : Option PeekTable) (memmap : List Memmap)
    (load_buf load_end : BitVec 64) (d : DebugState δ) : Option (MmInit × DebugState δ) := do
  let load_end := pageUp load_end
  let (s, d) ← memmap.foldlM (mmInitRound dev fuel ctx load_buf (load_end - load_buf))
    ({ peek_pde := peek_entry }, d)
  let d ← debugNum dev fuel ctx (literal "Bitmap allocator requirements: ") (getReq s.max) d
  let d ← debugNum dev fuel ctx (literal "Max address: ") s.max d
  return (s, d)

end functions

/-! ### `main` -/

/-- What `main` works on: interrupts, memory and device, the contexts of the serial ports, the
buffer of `hex`, and the pointer `vmem`. -/
structure KernelState (δ : Type) where
  int : IntState δ
  ctx : SerialCtxs
  buf : ℕ → BitVec 8
  vmem : BitVec 64

/-- The state in the endless loop of `main`. -/
structure Started (δ : Type) where
  state : KernelState δ
  mm : MmInit
  peek : Peek

/-- The entries behind `lm_data->memmap_ptr`. -/
def memmapAt (m : Mem) (lm_data : Stage2.LongModeData) : List Memmap :=
  (List.range lm_data.memmap_size.toNat).map (fun i => .ofLoader
    (Stage2.readMemMap m (lm_data.memmap_ptr.toNat + Stage2.MEM_MAP_SIZE * i)))

/-- `lm_data->scr_width * lm_data->scr_height * 4`, an `int`. -/
def framebufSize (lm_data : Stage2.LongModeData) : BitVec 64 :=
  (lm_data.scr_width.setWidth 32 * lm_data.scr_height.setWidth 32 * 4).signExtend 64

section main

variable (isr_tab : ℕ → BitVec 64) (idt : ℕ) (dev : Device δ) (fuel : ℕ)

/-- `main` up to its endless loop; `peek_entry` is the table behind `lm_data->peek_entry`. -/
def kernelMain (peek_entry : Option PeekTable) (lm_data : Stage2.LongModeData)
    (s : KernelState δ) : Option (Started δ) := do
  let int := (interruptsInit isr_tab idt dev s.int).2
  let (_, ctx, d) := debugInit dev s.ctx int.mem int.dev
  let (mm, buf, d) ← mmInitLogged dev fuel ctx peek_entry (memmapAt int.mem lm_data)
    lm_data.load_buf lm_data.load_end (s.buf, d)
  let d ← debugInfo dev fuel ctx (literal "Kernel started") d
  let (_, peek) := mmPeek { peek_pde := mm.peek_pde, virt := some s.vmem, flushed := [] }
    lm_data.framebuf_ptr (framebufSize lm_data)
  return {
    state := { int := { int with dev := d }, ctx, buf, vmem := peek.virt.getD s.vmem }
    mm, peek }

end main

/-! ### What is printed -/

def baseMsg : Message := .ofLiteral "Base: " (by decide) (by decide)
def endMsg : Message := .ofLiteral "End: " (by decide) (by decide)
def reqMsg : Message := .ofLiteral "Bitmap allocator requirements: " (by decide) (by decide)
def maxMsg : Message := .ofLiteral "Max address: " (by decide) (by decide)

/-- The messages of an entry. -/
def entryCalls (e : Memmap) : List DebugCall :=
  if e.Valid then [.num baseMsg e.base, .num endMsg e.end_] else []

/-- The messages of `mm_init`. -/
def mmInitCalls (mm : MmInit) : List DebugCall :=
  mm.map.flatMap entryCalls ++ [.num reqMsg (getReq mm.max), .num maxMsg mm.max]

/-- The messages of `main`. -/
def bootCalls (mm : MmInit) : List DebugCall := mmInitCalls mm ++ [kernelStarted]

section separation

variable {dev : Device δ} {fuel : ℕ} {ctx : SerialCtxs}

@[simp] theorem runCalls_nil (d : DebugState δ) : runCalls dev fuel ctx [] d = some d := rfl

@[simp] theorem runCalls_cons (c : DebugCall) (calls : List DebugCall) (d : DebugState δ) :
    runCalls dev fuel ctx (c :: calls) d =
      (c.run dev fuel ctx d).bind (runCalls dev fuel ctx calls) := rfl

theorem runCalls_append (calls calls' : List DebugCall) (d : DebugState δ) :
    runCalls dev fuel ctx (calls ++ calls') d =
      (runCalls dev fuel ctx calls d).bind (runCalls dev fuel ctx calls') := by
  unfold runCalls
  rw [List.foldlM_append]
  rfl

theorem mmInitRound_eq (load_buf load_size : BitVec 64) (s : MmInit) (e : Memmap)
    (d : DebugState δ) : mmInitRound dev fuel ctx load_buf load_size (s, d) e =
      (runCalls dev fuel ctx (entryCalls (initEntry load_buf load_size e)) d).map
        (fun d => (mmInitStep load_buf load_size s e, d)) := by
  unfold mmInitRound entryCalls
  by_cases h : (initEntry load_buf load_size e).Valid
  · simp only [if_pos h, runCalls_cons, Option.map_eq_bind, Option.bind_assoc]
    rfl
  · simp only [if_neg h]
    rfl

theorem foldlM_mmInitRound (load_buf load_size : BitVec 64) (memmap : List Memmap) (s : MmInit)
    (d : DebugState δ) : memmap.foldlM (mmInitRound dev fuel ctx load_buf load_size) (s, d) =
      (runCalls dev fuel ctx
        ((memmap.map (initEntry load_buf load_size)).flatMap entryCalls) d).map
          (fun d => (memmap.foldl (mmInitStep load_buf load_size) s, d)) := by
  induction memmap generalizing s d with
  | nil => rfl
  | cons e memmap ih =>
      rw [List.foldlM_cons, mmInitRound_eq, List.map_cons, List.flatMap_cons, runCalls_append,
        Option.map_bind]
      change (Option.map _ _).bind _ = _
      rw [Option.bind_map]
      congr 1
      funext d'
      exact ih (mmInitStep load_buf load_size s e) d'

/-- **Messages and memory** do not depend on each other. -/
theorem mmInitLogged_eq (peek_entry : Option PeekTable) (memmap : List Memmap)
    (load_buf load_end : BitVec 64) (d : DebugState δ) {mm : MmInit}
    (hmm : mm = mmInit peek_entry memmap load_buf load_end) :
    mmInitLogged dev fuel ctx peek_entry memmap load_buf load_end d =
      (runCalls dev fuel ctx (mmInitCalls mm) d).map (fun d => (mm, d)) := by
  have hmap := mmInit_map peek_entry memmap load_buf load_end
  have hfold : memmap.foldl (mmInitStep load_buf (pageUp load_end - load_buf))
      { peek_pde := peek_entry } = mm := hmm.symm
  rw [← hmm] at hmap
  unfold mmInitLogged mmInitCalls
  simp only [foldlM_mmInitRound, hfold, ← hmap, runCalls_append, runCalls_cons,
    Option.bind_eq_bind, Option.map_eq_bind, Option.bind_assoc]
  rfl

/-- What `main` has done with its messages sent. -/
def started (mm : MmInit) (lm_data : Stage2.LongModeData) (int : IntState δ) (ctx : SerialCtxs)
    (vmem : BitVec 64) (d : DebugState δ) : Started δ :=
  let peek := (mmPeek { peek_pde := mm.peek_pde, virt := some vmem, flushed := [] }
    lm_data.framebuf_ptr (framebufSize lm_data)).2
  { state := { int := { int with dev := d.2 }, ctx, buf := d.1, vmem := peek.virt.getD vmem }
    mm, peek }

theorem kernelMain_eq (isr_tab : ℕ → BitVec 64) (idt : ℕ) (peek_entry : Option PeekTable)
    (lm_data : Stage2.LongModeData) (s : KernelState δ) {int : IntState δ}
    (hint : int = (interruptsInit isr_tab idt dev s.int).2) {mm : MmInit}
    (hmm : mm = mmInit peek_entry (memmapAt int.mem lm_data) lm_data.load_buf lm_data.load_end) :
    kernelMain isr_tab idt dev fuel peek_entry lm_data s =
      (runCalls dev fuel (debugInit dev s.ctx int.mem int.dev).2.1 (bootCalls mm)
        (s.buf, (debugInit dev s.ctx int.mem int.dev).2.2)).map
          (started mm lm_data int (debugInit dev s.ctx int.mem int.dev).2.1 s.vmem) := by
  unfold kernelMain bootCalls
  simp only [← hint, mmInitLogged_eq _ _ _ _ _ hmm]
  rw [runCalls_append]
  simp only [Option.bind_eq_bind, Option.map_eq_bind, Option.bind_assoc]
  congr 1
  funext d
  simp only [kernelStarted, runCalls_cons, DebugCall.run, Option.map_eq_bind, Option.bind_assoc]
  rfl

end separation

/-! ### Reading the log -/

/-- The numbers behind a label, in order. -/
def labelled (label : String) (ls : List (List (BitVec 8))) : List (BitVec 64) :=
  (ls.filterMap readNumbered).filterMap (fun p => if p.1 = ascii label then some p.2 else none)

structure BootLog where
  ranges : List (BitVec 64 × BitVec 64)
  max : Option (BitVec 64)
deriving DecidableEq, Repr

/-- The free ranges and the highest address, as the messages say them. -/
def readBootLog (text : List (BitVec 8)) : BootLog :=
  let ls := logLines text
  { ranges := (labelled "Base: " ls).zip (labelled "End: " ls)
    max := (labelled "Max address: " ls).head? }

@[simp] theorem labelled_append (label : String) (ls ls' : List (List (BitVec 8))) :
    labelled label (ls ++ ls') = labelled label ls ++ labelled label ls' := by
  unfold labelled
  rw [List.filterMap_append, List.filterMap_append]

theorem labelled_num (label : String) (msg : Message) (v : BitVec 64) :
    labelled label [(DebugCall.num msg v).line] = if msg.chars = ascii label then [v] else [] := by
  have hread : readNumbered (DebugCall.num msg v).line = some (msg.chars, v) :=
    readNumbered_numbered msg.chars v
  unfold labelled
  simp only [List.filterMap_cons, hread, List.filterMap_nil]
  split_ifs <;> rfl

theorem labelled_started (label : String) : labelled label [kernelStarted.line] = [] := by
  have hread : readNumbered kernelStarted.line = none := by decide
  unfold labelled
  rw [List.filterMap_cons, hread]
  rfl

theorem labelled_entry (label : String) {e : Memmap} (he : e.Valid) :
    labelled label ((entryCalls e).map DebugCall.line) =
      (if ascii "Base: " = ascii label then [e.base] else []) ++
        if ascii "End: " = ascii label then [e.end_] else [] := by
  have hcalls : (entryCalls e).map DebugCall.line =
      [(DebugCall.num baseMsg e.base).line] ++ [(DebugCall.num endMsg e.end_).line] := by
    unfold entryCalls
    rw [if_pos he]
    rfl
  rw [hcalls, labelled_append, labelled_num, labelled_num]
  rfl

theorem labelled_entries {label : String} {f : Memmap → List (BitVec 64)}
    (h : ∀ e, e.Valid → labelled label ((entryCalls e).map DebugCall.line) = f e)
    (map : List Memmap) : labelled label ((map.flatMap entryCalls).map DebugCall.line) =
      (map.filter (fun e => e.Valid)).flatMap f := by
  induction map with
  | nil => rfl
  | cons e map ih =>
      rw [List.flatMap_cons, List.map_append, labelled_append, ih, List.filter_cons]
      by_cases he : e.Valid
      · rw [h e he, if_pos (decide_eq_true he)]
        rfl
      · rw [if_neg (by simpa using he)]
        unfold entryCalls
        rw [if_neg he]
        rfl

theorem labelled_bootCalls {label : String} {f : Memmap → List (BitVec 64)}
    (h : ∀ e, e.Valid → labelled label ((entryCalls e).map DebugCall.line) = f e) (mm : MmInit) :
    labelled label ((bootCalls mm).map DebugCall.line) =
      (mm.map.filter (fun e => e.Valid)).flatMap f ++
        ((if reqMsg.chars = ascii label then [getReq mm.max] else []) ++
          if maxMsg.chars = ascii label then [mm.max] else []) := by
  have hsplit : (bootCalls mm).map DebugCall.line =
      (mm.map.flatMap entryCalls).map DebugCall.line ++
        (([(DebugCall.num reqMsg (getReq mm.max)).line] ++
          [(DebugCall.num maxMsg mm.max).line]) ++ [kernelStarted.line]) := by
    simp [bootCalls, mmInitCalls]
  rw [hsplit, labelled_append, labelled_append, labelled_append, labelled_num, labelled_num,
    labelled_started, labelled_entries h, List.append_nil]

theorem newline_bootCalls (mm : MmInit) : ∀ c ∈ bootCalls mm, newline ∉ c.line := by
  have hnum : ∀ (msg : Message) (v : BitVec 64), newline ∉ msg.chars →
      newline ∉ (DebugCall.num msg v).line := fun _ v h => not_mem_numbered h v
  intro c hc
  unfold bootCalls mmInitCalls at hc
  rw [List.mem_append, List.mem_append, List.mem_flatMap] at hc
  rcases hc with (⟨e, -, hc⟩ | hc) | hc
  · unfold entryCalls at hc
    split_ifs at hc
    · simp only [List.mem_cons, List.not_mem_nil, or_false] at hc
      rcases hc with rfl | rfl
      · exact hnum baseMsg _ (by decide)
      · exact hnum endMsg _ (by decide)
    · exact absurd hc List.not_mem_nil
  · simp only [List.mem_cons, List.not_mem_nil, or_false] at hc
    rcases hc with rfl | rfl
    · exact hnum reqMsg _ (by decide)
    · exact hnum maxMsg _ (by decide)
  · rw [List.mem_singleton.mp hc]
    decide

/-- **Reading the messages of `main`.** -/
theorem readBootLog_bootCalls (mm : MmInit) :
    readBootLog (logText ((bootCalls mm).map DebugCall.line)) =
      { ranges := (mm.map.filter (fun e => e.Valid)).map (fun e => (e.base, e.end_))
        max := some mm.max } := by
  have hlines : ∀ l ∈ (bootCalls mm).map DebugCall.line, newline ∉ l := by
    intro l hl
    obtain ⟨c, hc, rfl⟩ := List.mem_map.mp hl
    exact newline_bootCalls mm c hc
  have hbase : labelled "Base: " ((bootCalls mm).map DebugCall.line) =
      (mm.map.filter (fun e => e.Valid)).map Memmap.base := by
    rw [labelled_bootCalls (f := fun e => [e.base])]
    · rw [if_neg (by decide), if_neg (by decide), List.append_nil, List.append_nil,
        List.map_eq_flatMap]
    · intro e he
      rw [labelled_entry _ he, if_pos rfl, if_neg (by decide), List.append_nil]
  have hend : labelled "End: " ((bootCalls mm).map DebugCall.line) =
      (mm.map.filter (fun e => e.Valid)).map Memmap.end_ := by
    rw [labelled_bootCalls (f := fun e => [e.end_])]
    · rw [if_neg (by decide), if_neg (by decide), List.append_nil, List.append_nil,
        List.map_eq_flatMap]
    · intro e he
      rw [labelled_entry _ he, if_neg (by decide), if_pos rfl, List.nil_append]
  have hmax : labelled "Max address: " ((bootCalls mm).map DebugCall.line) = [mm.max] := by
    rw [labelled_bootCalls (f := fun _ => [])]
    · rw [if_neg (by decide), if_pos (by decide)]
      simp
    · intro e he
      rw [labelled_entry _ he, if_neg (by decide), if_neg (by decide), List.append_nil]
  unfold readBootLog
  simp only [logLines_logText hlines, hbase, hend, hmax, List.zip_map', List.head?_cons]

/-! ### From the BIOS to the line -/

/-- The bytes of the ranges. -/
def rangeBytes (rs : List (BitVec 64 × BitVec 64)) : Set ℕ :=
  {x | ∃ r ∈ rs, x ∈ Set.Ico r.1.toNat r.2.toNat}

theorem rangeBytes_valid (map : List Memmap) :
    rangeBytes ((map.filter (fun e => e.Valid)).map (fun e => (e.base, e.end_))) =
      freeBytes map := by
  ext x
  constructor
  · rintro ⟨r, hr, hx⟩
    obtain ⟨e, he, rfl⟩ := List.mem_map.mp hr
    obtain ⟨hmem, hvalid⟩ := List.mem_filter.mp he
    obtain ⟨htype, hmib⟩ := of_decide_eq_true hvalid
    exact ⟨e, hmem, htype, hmib, hx⟩
  · rintro ⟨e, he, htype, hmib, hx⟩
    have hvalid : e.Valid := ⟨htype, hmib⟩
    exact ⟨_, List.mem_map_of_mem (List.mem_filter.mpr ⟨he, decide_eq_true hvalid⟩), hx⟩

theorem fillIdt_below (isr_tab : ℕ → BitVec 64) (idt : ℕ) (m : Mem) {x : ℕ} (hx : x < idt) :
    fillIdt isr_tab idt m x = m x := by
  have hround : ∀ (attr : BitVec 8) (j : ℕ) (m' : Mem), m' x = m x →
      genRound isr_tab idt attr (BitVec.ofNat 64 j) m' x = m x := by
    intro attr j m' h
    rw [← h]
    exact genGate_frame _ _ _ _ (Or.inl (by omega))
  unfold fillIdt
  exact rounds_invariant (I := fun m' => m' x = m x) (fun j _ m' h => hround _ j m' h)
    (rounds_invariant (I := fun m' => m' x = m x) (fun j _ m' h => hround _ j m' h) rfl)

/-- The kernel reads the map that the BIOS calls have left. -/
theorem memmapAt_saved (st : Stage2.Statics) (lay : Stage2.Layout) (isr_tab : ℕ → BitVec 64)
    {idt : ℕ} (hidt : 0x200000 ≤ idt) (m : Mem) :
    memmapAt (fillIdt isr_tab idt m) (Stage2.fillLongModeData st.rm_data lay) =
      (Stage2.savedMap m st.rm_data.memmap_size.toNat).map .ofLoader := by
  have hptr : (Stage2.fillLongModeData st.rm_data lay).memmap_ptr.toNat =
      Stage2.MEMMAP_SEG.toNat * 16 := by
    unfold Stage2.fillLongModeData Stage2.memMapPtr
    rw [st.memmap_seg_eq]
    rfl
  have hbase : Stage2.MEMMAP_SEG.toNat * 16 = 0xA000 := rfl
  have hsize : Stage2.MEM_MAP_SIZE = 24 := rfl
  unfold memmapAt Stage2.savedMap
  rw [hptr, List.map_map]
  apply List.map_congr_left
  intro i hi
  have hlt : i < st.rm_data.memmap_size.toNat := List.mem_range.mp hi
  have hmax := st.rm_data.memmap_size.isLt
  refine congrArg Memmap.ofLoader (Stage2.readMemMap_congr ?_)
  intro x _ hx
  rw [hsize] at hx
  exact fillIdt_below isr_tab idt m (by omega)

theorem freeBytes_mmInit {mem_map : List Stage2.MemMap} {h : Stage2.KernelHeader}
    {lay : Stage2.Layout}
    (hdisj : mem_map.Pairwise (fun a b => Disjoint (regionBytes a) (regionBytes b)))
    (hmap : ∀ e ∈ mem_map, e.base.toNat + e.len.toNat ≤ 2 ^ 52)
    (hs : (Stage2.imageSize h).toNat + h.stack_size.toNat + 12 * 4096 < 2 ^ 32)
    (ha : Stage2.allocate mem_map h = some lay) (peek_entry : Option PeekTable) :
    freeBytes (mmInit peek_entry (mem_map.map .ofLoader) lay.load_buf lay.buf).map =
      usableBytes mem_map \ Set.Ico lay.load_buf.toNat (roundUp 4096 lay.buf.toNat) := by
  rw [mmInit_map, List.map_map]
  ext x
  constructor
  · rintro ⟨e', he', htype, hx⟩
    obtain ⟨e, he, rfl⟩ := List.mem_map.mp he'
    obtain ⟨hin, hout⟩ := (mem_initEntry hdisj hmap hs ha he rfl x).mp hx
    exact ⟨⟨e, he, htype, hin⟩, hout⟩
  · rintro ⟨⟨e, he, htype, hin⟩, hout⟩
    exact ⟨_, List.mem_map_of_mem he, htype,
      (mem_initEntry hdisj hmap hs ha he rfl x).mpr ⟨hin, hout⟩⟩

section boot

variable {isr_tab : ℕ → BitVec 64} {idt : ℕ}

/-- **The log of the start.**  The kernel was placed by the loader with the map of the BIOS, and its
`debug_init` succeeds.  Then the ranges on the line are the usable memory without the pages of the
image, all of them below the address that the allocator is asked about; and `main` gets to its
endless loop when the port keeps getting ready. -/
theorem bootLog_free {dev : Device δ} {s : KernelState (δ × Uart)} {int : IntState (δ × Uart)}
    {mem_map : List Stage2.MemMap} {h : Stage2.KernelHeader} {lay : Stage2.Layout}
    {st : Stage2.Statics} (hidt : 0x200000 ≤ idt)
    (hint : int = (interruptsInit isr_tab idt dev.wired s.int).2)
    (hsaved : mem_map = Stage2.savedMap s.int.mem st.rm_data.memmap_size.toNat)
    (hdisj : mem_map.Pairwise (fun a b => Disjoint (regionBytes a) (regionBytes b)))
    (hmap : ∀ e ∈ mem_map, e.base.toNat + e.len.toNat ≤ 2 ^ 52)
    (hs : (Stage2.imageSize h).toNat + h.stack_size.toNat + 12 * 4096 < 2 ^ 32)
    (ha : Stage2.allocate mem_map h = some lay)
    (hinit : (debugInit dev.wired s.ctx int.mem int.dev).1 = 0) (peek_entry : Option PeekTable) :
    (∀ fuel t, kernelMain isr_tab idt dev.wired fuel peek_entry
        (Stage2.fillLongModeData st.rm_data lay) s = some t →
      ∃ text max, t.state.int.dev.2.line (bdaComs int.mem 0) =
          int.dev.2.line (bdaComs int.mem 0) ++ text ∧
        rangeBytes (readBootLog text).ranges =
          usableBytes mem_map \ Set.Ico lay.load_buf.toNat (roundUp 4096 lay.buf.toNat) ∧
        (readBootLog text).max = some max ∧
        ∀ r ∈ (readBootLog text).ranges, r.2.toNat ≤ max.toNat) ∧
    ∀ k, Prompt dev (bdaComs int.mem 0) k → ∃ K, ∀ fuel ≥ K, ∃ t,
      kernelMain isr_tab idt dev.wired fuel peek_entry (Stage2.fillLongModeData st.rm_data lay) s =
        some t := by
  have hmem : int.mem = fillIdt isr_tab idt s.int.mem := by rw [hint]; rfl
  have hread : memmapAt int.mem (Stage2.fillLongModeData st.rm_data lay) =
      mem_map.map .ofLoader := by
    rw [hmem, hsaved, memmapAt_saved st lay isr_tab hidt]
  obtain ⟨mm, hmm⟩ : ∃ mm, mm = mmInit peek_entry (mem_map.map .ofLoader) lay.load_buf lay.buf :=
    ⟨_, rfl⟩
  have hmain := fun fuel => @kernelMain_eq _ dev.wired fuel isr_tab idt peek_entry
    (Stage2.fillLongModeData st.rm_data lay) s _ hint mm (by rw [hread]; exact hmm)
  obtain ⟨harrives, hreturns⟩ := debugInit_arrives (n := callsFuel (bootCalls mm)) rfl hinit
    (fun fuel R hlogged hfuel => runCalls_adds hlogged hfuel) s.buf
  constructor
  · intro fuel t ht
    rw [hmain] at ht
    obtain ⟨d, hd, rfl⟩ := Option.map_eq_some_iff.mp ht
    have hlog := readBootLog_bootCalls mm
    refine ⟨_, mm.max, harrives fuel d hd, ?_, ?_, ?_⟩
    · rw [hlog, rangeBytes_valid, hmm]
      exact freeBytes_mmInit hdisj hmap hs ha peek_entry
    · rw [hlog]
    · intro r hr
      rw [hlog] at hr
      obtain ⟨e, he, rfl⟩ := List.mem_map.mp hr
      rw [hmm] at he ⊢
      exact mmInit_max _ _ _ _ e (List.mem_filter.mp he).1
  · intro k hk
    obtain ⟨K, hK⟩ := hreturns k hk
    refine ⟨K, ?_⟩
    intro fuel hfuel
    obtain ⟨d, hd⟩ := hK fuel hfuel
    exact ⟨_, by rw [hmain, hd]; rfl⟩

/-- **Without a port.**  When the first `debug_init` fails, `main` gets to its endless loop all the
same, with the same memory, and nothing it prints touches the device. -/
theorem kernelMain_silent {dev : Device δ} {s : KernelState δ} {int : IntState δ}
    {lm_data : Stage2.LongModeData} (hint : int = (interruptsInit isr_tab idt dev s.int).2)
    (hport : debugPort s.ctx = 0) (hinit : (debugInit dev s.ctx int.mem int.dev).1 ≠ 0)
    (fuel : ℕ) (peek_entry : Option PeekTable) :
    ∃ t, kernelMain isr_tab idt dev fuel peek_entry lm_data s = some t ∧
      t.mm = mmInit peek_entry (memmapAt int.mem lm_data) lm_data.load_buf lm_data.load_end ∧
      t.state.int.dev = (debugInit dev s.ctx int.mem int.dev).2.2 := by
  have hctx : (debugInit dev s.ctx int.mem int.dev).2.1 = s.ctx :=
    ((serialInit_result dev int.mem 0 0 s.ctx int.dev).resolve_right
      (fun hok => hinit hok.1)).2
  obtain ⟨mm, hmm⟩ : ∃ mm, mm = mmInit peek_entry (memmapAt int.mem lm_data) lm_data.load_buf
      lm_data.load_end := ⟨_, rfl⟩
  rw [kernelMain_eq isr_tab idt peek_entry lm_data s hint hmm, hctx, ← hmm]
  generalize (debugInit dev s.ctx int.mem int.dev).2.2 = d₀
  have hlogged : Logged dev fuel s.ctx True (fun d => d = d₀) (fun _ => []) :=
    fun hne => absurd hport hne
  have hadds := @runCalls_adds _ _ _ _ _ _ _ hlogged (bootCalls mm) (fun _ hne => absurd hport hne)
  obtain ⟨d, hd⟩ := hadds.returns trivial (s.buf, d₀) rfl
  exact ⟨_, by rw [hd]; rfl, rfl, (hadds.adds _ d rfl hd).1⟩

end boot

/-- A machine with 7 MiB whose BIOS has found one port. -/
def bootMem : Mem := fun x =>
  if x = 0xA002 then 0x10 else if x = 0xA00A then 0x70
  else if x = 0xA010 ∨ x = 0xA014 then 1 else onePort x

def bootState : KernelState (BitVec 8 × Uart) where
  int := { mem := bootMem, idtr := { base := 0, limit := 0 }, enabled := false,
           dev := (0, { reg := fun _ => 0, line := fun _ => [] }) }
  ctx := fun _ => { rx_cb := 0, port := 0 }
  buf := fun _ => 0
  vmem := 0

theorem bdaComs_boot (isr_tab : ℕ → BitVec 64) :
    bdaComs (fillIdt isr_tab 0x200000 bootMem) 0 = 0x3F8 := by
  have hread : readLE 2 (fillIdt isr_tab 0x200000 bootMem) 0x400 = readLE 2 bootMem 0x400 :=
    readLE_congr fun x _ hx => fillIdt_below isr_tab 0x200000 bootMem (by omega)
  unfold bdaComs
  rw [Nat.mul_zero, Nat.add_zero, hread]
  decide

theorem debugInit_echo {m : Mem} (hport : bdaComs m 0 = 0x3F8) (ctx : SerialCtxs)
    (d : BitVec 8 × Uart) : (debugInit echoSerial.wired ctx m d).1 = 0 := by
  have hne : bdaComs m (0 : BitVec 64).toNat ≠ 0 := by
    change bdaComs m 0 ≠ 0
    rw [hport]
    decide
  have htest : (selfTest echoSerial.wired (bdaComs m (0 : BitVec 64).toNat) d).1 = 0x5A := by
    change (selfTest echoSerial.wired (bdaComs m 0) d).1 = 0x5A
    rw [hport]
    rfl
  unfold debugInit
  rw [serialInit_eq _ _ _ _ _ _ (by decide) hne, if_neg (not_not.mpr htest)]

theorem bootLog_free_region : ∃ fuel t text, kernelMain (BitVec.ofNat 64) 0x200000
    echoSerial.wired fuel none
    (Stage2.fillLongModeData Stage2.plainStatics.rm_data Stage2.smallLayout) bootState = some t ∧
    t.state.int.dev.2.line 0x3F8 = (interruptsInit (BitVec.ofNat 64) 0x200000 echoSerial.wired
      bootState.int).2.dev.2.line 0x3F8 ++ text ∧
    rangeBytes (readBootLog text).ranges =
      usableBytes Stage2.oneRegion \ Set.Ico 0x100000 0x111000 := by
  have hport : bdaComs (interruptsInit (BitVec.ofNat 64) 0x200000 echoSerial.wired
      bootState.int).2.mem 0 = 0x3F8 := bdaComs_boot (BitVec.ofNat 64)
  obtain ⟨hlog, hreturns⟩ := @bootLog_free _ _ _ echoSerial bootState _ _ Stage2.smallKernel
    Stage2.smallLayout Stage2.plainStatics le_rfl rfl (by decide) (List.pairwise_singleton _ _)
    (by decide) (by decide) Stage2.allocate_small (debugInit_echo hport _ _) none
  rw [hport] at hlog hreturns
  obtain ⟨K, hK⟩ := hreturns 0 prompt_echo
  obtain ⟨t, ht⟩ := hK K le_rfl
  obtain ⟨text, -, hline, hranges, -⟩ := hlog K t ht
  exact ⟨K, t, text, ht, hline, hranges⟩

/-- The same machine with a port whose self-test fails. -/
def fadedState : KernelState ℕ where
  int := { mem := bootMem, idtr := { base := 0, limit := 0 }, enabled := false, dev := 1 }
  ctx := fun _ => { rx_cb := 0, port := 0 }
  buf := fun _ => 0
  vmem := 0

theorem kernelMain_silent_faded : ∃ t, kernelMain (BitVec.ofNat 64) 0x200000 fadingSerial 0 none
    (Stage2.fillLongModeData Stage2.plainStatics.rm_data Stage2.smallLayout) fadedState =
      some t := by
  have hport : bdaComs (interruptsInit (BitVec.ofNat 64) 0x200000 fadingSerial
      fadedState.int).2.mem (0 : BitVec 64).toNat = 0x3F8 := bdaComs_boot (BitVec.ofNat 64)
  have hinit : (debugInit fadingSerial fadedState.ctx (interruptsInit (BitVec.ofNat 64) 0x200000
      fadingSerial fadedState.int).2.mem 1).1 ≠ 0 := by
    unfold debugInit
    rw [serialInit_eq _ _ _ _ _ _ (by decide) (by rw [hport]; decide), hport]
    decide
  obtain ⟨t, ht, -⟩ := kernelMain_silent rfl rfl hinit 0 none
  exact ⟨t, ht⟩

end Ziemniak.Kernel
