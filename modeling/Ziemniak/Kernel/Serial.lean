import Ziemniak.BareMetal.Memory
import Ziemniak.BareMetal.Ports
import Ziemniak.Kernel.Defs

/-! # The serial ports

`serial.c` against any device.  A history of calls decides what the four contexts hold
(`SerialHistory.port`), so what `serial_print` does is determined by the earlier calls of
`serial_init`: the bytes of the text go to the port that the latest successful one has found,
each after a status read that allowed it. -/

namespace Ziemniak.Kernel

open BareMetal

/-! ### The driver -/

def SERIAL_CNT : ℕ := 4
def DATA_REG : BitVec 16 := 0
def INTEN_REG : BitVec 16 := 1
def DIV_LOW_REG : BitVec 16 := 0
def DIV_HIGH_REG : BitVec 16 := 1
def INT_FIFO_REG : BitVec 16 := 2
def LINE_CTL_REG : BitVec 16 := 3
def MODEM_CTL_REG : BitVec 16 := 4
def LINE_STS_REG : BitVec 16 := 5
def DLAB : BitVec 8 := 0x80
def TX_EMPTY : BitVec 8 := 0x20

/-- A context; `rx_cb` is the address of the callback. -/
structure SerialCtx where
  rx_cb : BitVec 64
  port : BitVec 16
deriving DecidableEq, Repr

abbrev SerialCtxs := Fin SERIAL_CNT → SerialCtx

/-- `bda_coms[id]`. -/
def bdaComs (m : Mem) (id : ℕ) : BitVec 16 := BitVec.ofNat 16 (readLE 2 m (0x400 + 2 * id))

section driver

variable {δ : Type} (dev : Device δ)

def isTxEmpty (sts : BitVec 8) : Bool := sts &&& TX_EMPTY != 0

def serialPutc (fuel : ℕ) (port : BitVec 16) (chr : BitVec 8) (d : δ) : Option δ := do
  let (_, d) ← dev.poll fuel (port + LINE_STS_REG) (fun sts => !isTxEmpty sts) d
  return dev.outb (port + DATA_REG) chr d

/-- The return value, the contexts and the device. -/
def serialInit (m : Mem) (id rx_cb : BitVec 64) (ctx : SerialCtxs) (d : δ) :
    ℕ × SerialCtxs × δ :=
  if h : id.toNat < SERIAL_CNT then
    let port := bdaComs m id.toNat
    if port = 0 then ( EIO, ctx, d)
    else
      let d := dev.outb (port + INTEN_REG) 0x00 d
      let d := dev.outb (port + LINE_CTL_REG) DLAB d
      let d := dev.outb (port + DIV_LOW_REG) 0x01 d
      let d := dev.outb (port + DIV_HIGH_REG) 0x00 d
      let d := dev.outb (port + LINE_CTL_REG) 0x03 d
      let d := dev.outb (port + INT_FIFO_REG) 0xC7 d
      let d := dev.outb (port + MODEM_CTL_REG) 0x0B d
      let d := dev.outb (port + MODEM_CTL_REG) 0x1E d
      let d := dev.outb (port + DATA_REG) 0x5A d
      let test := dev.inb (port + DATA_REG) d
      if test.1 ≠ 0x5A then ( EIO, ctx, test.2)
      else
        (0, Function.update ctx ⟨id.toNat, h⟩ { rx_cb, port },
          dev.outb (port + MODEM_CTL_REG) 0x0B test.2)
  else (EINVAL, ctx, d)

/-- The loop of `serial_print`; `text` is what lies behind the pointer. -/
def printLoop (fuel : ℕ) (port : BitVec 16) (text : BitVec 64 → BitVec 8) (d : δ) :
    Option (BitVec 64 × δ) :=
  whileLoop (fun s : BitVec 64 × δ => text s.1 != 0)
    (fun s => (serialPutc dev fuel port (text s.1) s.2).map (fun d => (s.1 + 1, d))) fuel (0, d)

/-- `none` when the port keeps the driver waiting, or the text has no end. -/
def serialPrint (fuel : ℕ) (id : BitVec 64) (text : BitVec 64 → BitVec 8) (ctx : SerialCtxs)
    (d : δ) : Option (ℕ × δ) :=
  if h : id.toNat < SERIAL_CNT then
    let port := (ctx ⟨id.toNat, h⟩).port
    if port = 0 then some (EPERM, d)
    else (printLoop dev fuel port text d).map (fun s => (0, s.2))
  else some (EINVAL, d)

end driver

/-! ### One call -/

/-- The accesses that print the bytes `bs`: for each of them status reads, the last one with the
TX-empty bit, and its write. -/
inductive Printed (port : BitVec 16) : List (BitVec 8) → List PortEvent → Prop
  | nil : Printed port [] []
  | snoc {bs : List (BitVec 8)} {ev : List PortEvent} (b sts : BitVec 8) (l : List (BitVec 8)) :
      Printed port bs ev → isTxEmpty sts = true →
      Printed port (bs ++ [b]) (ev ++ (l ++ [sts]).map (.inb (port + LINE_STS_REG)) ++
        [.outb (port + DATA_REG) b])

theorem written_reads (port : BitVec 16) (l : List (BitVec 8)) :
    (l.map (PortEvent.inb port)).filterMap PortEvent.written = [] := by
  induction l with
  | nil => rfl
  | cons v l ih => exact ih

/-- Everything written is a byte of the text, to the data register. -/
theorem Printed.written {port : BitVec 16} {bs : List (BitVec 8)} {ev : List PortEvent}
    (h : Printed port bs ev) :
    ev.filterMap PortEvent.written = bs.map (fun b => (port + DATA_REG, b)) := by
  induction h with
  | nil => rfl
  | snoc b sts l _ _ ih =>
      rw [List.filterMap_append, List.filterMap_append, ih, written_reads, List.append_nil,
        List.map_append]
      rfl

theorem split_of_write {port p q : BitVec 16} {b b' : BitVec 8} {l : List (BitVec 8)}
    {ev before after : List PortEvent}
    (h : ev ++ l.map (.inb port) ++ [.outb q b'] = before ++ .outb p b :: after) :
    before = ev ++ l.map (.inb port) ∨ ∃ after', ev = before ++ .outb p b :: after' := by
  cases List.eq_nil_or_concat after with
  | inl hnil =>
      rw [hnil] at h
      exact Or.inl (List.append_inj_left' h rfl).symm
  | inr hconcat =>
      obtain ⟨after', x, hafter⟩ := hconcat
      rw [hafter, List.concat_eq_append, ← List.cons_append, ← List.append_assoc] at h
      have hrest := List.append_inj_left' h rfl
      cases List.append_eq_append_iff.mp hrest with
      | inl hin =>
          obtain ⟨c, -, hc⟩ := hin
          have hmem : PortEvent.outb p b ∈ l.map (PortEvent.inb port) := by
            rw [hc]
            simp
          simp at hmem
      | inr hin =>
          obtain ⟨c, hev, hc⟩ := hin
          cases c with
          | nil =>
              have hmem : PortEvent.outb p b ∈ l.map (PortEvent.inb port) := by
                rw [List.nil_append] at hc
                rw [← hc]
                simp
              simp at hmem
          | cons y c =>
              obtain ⟨rfl, -⟩ := List.cons.inj hc
              exact Or.inr ⟨c, hev⟩

/-- The access right before a write is a status read with the TX-empty bit. -/
theorem Printed.preceded {port : BitVec 16} {bs : List (BitVec 8)} {ev : List PortEvent}
    (h : Printed port bs ev) {before after : List PortEvent} {p : BitVec 16} {b : BitVec 8}
    (hev : ev = before ++ .outb p b :: after) :
    ∃ l sts, before = l ++ [.inb (port + LINE_STS_REG) sts] ∧ isTxEmpty sts = true := by
  induction h generalizing after with
  | nil => simp at hev
  | @snoc bs ev b' sts l _ hsts ih =>
      cases split_of_write hev with
      | inl hlast =>
          refine ⟨ev ++ l.map (.inb (port + LINE_STS_REG)), sts, ?_, hsts⟩
          rw [hlast, List.map_append, List.append_assoc]
          rfl
      | inr hearlier =>
          obtain ⟨after', hev'⟩ := hearlier
          exact ih hev'

theorem serialPutc_traced {δ : Type} {dev : Device δ} {fuel : ℕ} {port : BitVec 16}
    {chr : BitVec 8} {d d' : δ × List PortEvent} {bs : List (BitVec 8)}
    (h : serialPutc dev.traced fuel port chr d = some d') (hd : Printed port bs d.2) :
    Printed port (bs ++ [chr]) d'.2 := by
  unfold serialPutc at h
  obtain ⟨⟨sts, e⟩, hpoll, hout⟩ := Option.bind_eq_some_iff.mp h
  obtain rfl := Option.some.inj hout
  obtain ⟨hbusy, l, hl⟩ := Device.poll_traced hpoll
  have hsts : isTxEmpty sts = true := by simpa using hbusy
  have hev : (dev.traced.outb (port + DATA_REG) chr e).2 =
      d.2 ++ (l ++ [sts]).map (.inb (port + LINE_STS_REG)) ++ [.outb (port + DATA_REG) chr] := by
    rw [← hl]
    rfl
  rw [hev]
  exact .snoc chr sts l hd hsts

/-- The first `n` bytes of a text. -/
def textBytes (text : BitVec 64 → BitVec 8) (n : ℕ) : List (BitVec 8) :=
  (List.range n).map (fun i => text (BitVec.ofNat 64 i))

/-- The text ends at `n`. -/
def TextEnds (text : BitVec 64 → BitVec 8) (n : ℕ) : Prop :=
  text (BitVec.ofNat 64 n) = 0 ∧ ∀ i < n, text (BitVec.ofNat 64 i) ≠ 0

/-- What holds of the bytes sent so far, if every byte adds itself, holds of the text. -/
theorem printLoop_bytes {δ : Type} {dev : Device δ} {fuel : ℕ} {port : BitVec 16}
    {text : BitVec 64 → BitVec 8} {P : List (BitVec 8) → δ → Prop}
    (hputc : ∀ bs chr e e', P bs e → serialPutc dev fuel port chr e = some e' →
      P (bs ++ [chr]) e') {d : δ} (hd : P [] d) {s : BitVec 64 × δ}
    (h : printLoop dev fuel port text d = some s) :
    ∃ n, TextEnds text n ∧ P (textBytes text n) s.2 := by
  obtain ⟨⟨n, hi, hnz, hp⟩, hexit⟩ := whileLoop_invariant
    (I := fun s : BitVec 64 × δ => ∃ n, s.1 = BitVec.ofNat 64 n ∧
      (∀ i < n, text (BitVec.ofNat 64 i) ≠ 0) ∧ P (textBytes text n) s.2)
    (by
      rintro ⟨i, e⟩ s' ⟨n, hi, hnz, hp⟩ hguard hs
      obtain ⟨e', he', rfl⟩ := Option.map_eq_some_iff.mp hs
      simp only at hi hp hguard he'
      subst hi
      refine ⟨n + 1, ?_, ?_, ?_⟩
      · exact (BitVec.ofNat_add n 1).symm
      · intro j hj
        cases Nat.lt_succ_iff_lt_or_eq.mp hj with
        | inl hlt => exact hnz j hlt
        | inr heq =>
            subst heq
            simpa using hguard
      · have hsnoc : textBytes text (n + 1) =
            textBytes text n ++ [text (BitVec.ofNat 64 n)] := by
          unfold textBytes
          rw [List.range_succ, List.map_append]
          rfl
        rw [hsnoc]
        exact hputc _ _ _ _ hp he')
    (s := (0, d)) ⟨0, rfl, by simp, hd⟩ h
  refine ⟨n, ⟨?_, hnz⟩, hp⟩
  rw [← hi]
  simpa using hexit

theorem printLoop_traced {δ : Type} {dev : Device δ} {fuel : ℕ} {port : BitVec 16}
    {text : BitVec 64 → BitVec 8} {d : δ} {s : BitVec 64 × (δ × List PortEvent)}
    (h : printLoop dev.traced fuel port text (d, []) = some s) :
    ∃ n, TextEnds text n ∧ Printed port (textBytes text n) s.2.2 :=
  printLoop_bytes (P := fun bs e => Printed port bs e.2)
    (fun _ _ _ _ hp he => serialPutc_traced he hp) .nil h

/-- `serial_init` returns an error and leaves the contexts, or sets the one it was called for. -/
theorem serialInit_result {δ : Type} (dev : Device δ) (m : Mem) (id rx_cb : BitVec 64)
    (ctx : SerialCtxs) (d : δ) :
    (serialInit dev m id rx_cb ctx d).1 ≠ 0 ∧ (serialInit dev m id rx_cb ctx d).2.1 = ctx ∨
      (serialInit dev m id rx_cb ctx d).1 = 0 ∧ bdaComs m id.toNat ≠ 0 ∧
        ∃ h : id.toNat < SERIAL_CNT, (serialInit dev m id rx_cb ctx d).2.1 =
          Function.update ctx ⟨id.toNat, h⟩ { rx_cb, port := bdaComs m id.toNat } := by
  have hio : ( EIO : ℕ) ≠ 0 := by decide
  have hinval : EINVAL ≠ 0 := by decide
  unfold serialInit
  by_cases h : id.toNat < SERIAL_CNT
  · rw [dif_pos h]
    simp only
    by_cases hport : bdaComs m id.toNat = 0
    · rw [if_pos hport]
      exact Or.inl ⟨hio, rfl⟩
    · rw [if_neg hport]
      split_ifs with htest
      · exact Or.inl ⟨hio, rfl⟩
      · exact Or.inr ⟨rfl, hport, h, rfl⟩
  · rw [dif_neg h]
    exact Or.inl ⟨hinval, rfl⟩

/-! ### Histories -/

inductive SerialCall
  | init (m : Mem) (id rx_cb : BitVec 64)
  | print (id : BitVec 64) (text : BitVec 64 → BitVec 8)

/-- A call that has returned. -/
structure SerialReturn where
  call : SerialCall
  ret : ℕ

/-- The histories of calls, the latest first; the contexts start with zeroes. -/
inductive SerialHistory {δ : Type} (dev : Device δ) : List SerialReturn → SerialCtxs → δ → Prop
  | start (d : δ) : SerialHistory dev [] (fun _ => { rx_cb := 0, port := 0 }) d
  | init {calls : List SerialReturn} {ctx : SerialCtxs} {d : δ} (m : Mem) (id rx_cb : BitVec 64) :
      SerialHistory dev calls ctx d →
      SerialHistory dev
        ({ call := .init m id rx_cb, ret := (serialInit dev m id rx_cb ctx d).1 } :: calls)
        (serialInit dev m id rx_cb ctx d).2.1 (serialInit dev m id rx_cb ctx d).2.2
  | print {calls : List SerialReturn} {ctx : SerialCtxs} {d d' : δ} {fuel ret : ℕ}
      {id : BitVec 64} {text : BitVec 64 → BitVec 8} : SerialHistory dev calls ctx d →
      serialPrint dev fuel id text ctx d = some (ret, d') →
      SerialHistory dev ({ call := .print id text, ret } :: calls) ctx d'

/-- The port that a successful `serial_init(id)` has found. -/
def SerialReturn.opened (id : BitVec 64) (r : SerialReturn) : Option (BitVec 16) :=
  match r.call with
  | .init m id' _ => if id' = id ∧ r.ret = 0 then some (bdaComs m id.toNat) else none
  | .print .. => none

/-- The port of the latest successful `serial_init(id)`. -/
def lastPort (calls : List SerialReturn) (id : BitVec 64) : Option (BitVec 16) :=
  calls.findSome? (SerialReturn.opened id)

theorem opened_isSome {id : BitVec 64} {r : SerialReturn} :
    (r.opened id).isSome ↔ ∃ m rx_cb, r = { call := .init m id rx_cb, ret := 0 } := by
  obtain ⟨call, ret⟩ := r
  cases call with
  | print id' text =>
      constructor
      · intro h
        cases h
      · rintro ⟨m, rx_cb, h⟩
        cases h
  | init m id' rx_cb =>
      unfold SerialReturn.opened
      simp only
      constructor
      · intro h
        split_ifs at h with hc
        · obtain ⟨rfl, rfl⟩ := hc
          exact ⟨m, rx_cb, rfl⟩
        · cases h
      · rintro ⟨m', rx_cb', h⟩
        cases h
        rw [if_pos ⟨rfl, rfl⟩]
        rfl

theorem lastPort_isSome {calls : List SerialReturn} {id : BitVec 64} :
    (lastPort calls id).isSome ↔
      ∃ r ∈ calls, ∃ m rx_cb, r = { call := .init m id rx_cb, ret := 0 } := by
  unfold lastPort
  rw [List.findSome?_isSome_iff]
  exact exists_congr fun r => and_congr_right fun _ => opened_isSome

/-- **The contexts** hold the port of the latest successful call, and zero without one. -/
theorem SerialHistory.port {δ : Type} {dev : Device δ} {calls : List SerialReturn}
    {ctx : SerialCtxs} {d : δ} (h : SerialHistory dev calls ctx d) (id : BitVec 64)
    (hid : id.toNat < SERIAL_CNT) : lastPort calls id =
      if (ctx ⟨id.toNat, hid⟩).port = 0 then none else some (ctx ⟨id.toNat, hid⟩).port := by
  induction h with
  | start d => rfl
  | print _ _ ih => exact ih
  | @init calls ctx d m id' rx_cb _ ih =>
      unfold lastPort at ih ⊢
      rw [List.findSome?_cons]
      unfold SerialReturn.opened at ih ⊢
      cases serialInit_result dev m id' rx_cb ctx d with
      | inl herr =>
          rw [herr.2]
          simp only [herr.1, and_false, if_false]
          exact ih
      | inr hok =>
          obtain ⟨hret, hport, hid', hctx⟩ := hok
          simp only [hret, and_true]
          rw [hctx]
          by_cases heq : id' = id
          · subst heq
            rw [if_pos rfl, Function.update_self, if_neg hport]
          · have hne : (⟨id.toNat, hid⟩ : Fin SERIAL_CNT) ≠ ⟨id'.toNat, hid'⟩ := by
              intro hfin
              exact heq (BitVec.eq_of_toNat_eq (Fin.mk.inj hfin).symm)
            rw [if_neg heq, Function.update_of_ne hne]
            exact ih

/-! ### What a call does -/

section calls

variable {δ : Type} {dev : Device δ} {calls : List SerialReturn} {ctx : SerialCtxs} {d : δ}

theorem serialPrint_result {fuel ret : ℕ} {id : BitVec 64} {text : BitVec 64 → BitVec 8} {d' : δ}
    {ev : List PortEvent} (h : SerialHistory dev calls ctx d)
    (hp : serialPrint dev.traced fuel id text ctx (d, []) = some (ret, (d', ev))) :
    (∃ port n, lastPort calls id = some port ∧ ret = 0 ∧ TextEnds text n ∧
        Printed port (textBytes text n) ev) ∧ id.toNat < SERIAL_CNT ∨
      (id.toNat < SERIAL_CNT → lastPort calls id = none) ∧ ret ≠ 0 ∧ ev = [] := by
  have hinval : EINVAL ≠ 0 := by decide
  have hperm : EPERM ≠ 0 := by decide
  unfold serialPrint at hp
  by_cases hid : id.toNat < SERIAL_CNT
  · have hport := h.port id hid
    rw [dif_pos hid] at hp
    simp only at hp
    by_cases hzero : (ctx ⟨id.toNat, hid⟩).port = 0
    · rw [if_pos hzero] at hp hport
      cases hp
      exact Or.inr ⟨fun _ => hport, hperm, rfl⟩
    · rw [if_neg hzero] at hp hport
      obtain ⟨s, hs, heq⟩ := Option.map_eq_some_iff.mp hp
      obtain ⟨n, hends, hprinted⟩ := printLoop_traced hs
      obtain ⟨rfl, hev⟩ := Prod.mk.inj heq
      rw [hev] at hprinted
      exact Or.inl ⟨⟨_, n, hport, rfl, hends, hprinted⟩, hid⟩
  · rw [dif_neg hid] at hp
    cases hp
    exact Or.inr ⟨fun hlt => absurd hlt hid, hinval, rfl⟩

/-- **The calls** after any history.  `serial_print` succeeds exactly for a port that has been
initialised, and then writes the text to it, each byte after a status read that allows it;
otherwise it does not touch a port.  `serial_init` changes the context it is called for, and no
other, when it succeeds. -/
theorem serial_calls (h : SerialHistory dev calls ctx d) :
    (∀ fuel id text ret d' ev,
      serialPrint dev.traced fuel id text ctx (d, []) = some (ret, (d', ev)) →
        (ret = 0 ↔ id.toNat < SERIAL_CNT ∧
          ∃ r ∈ calls, ∃ m rx_cb, r = { call := .init m id rx_cb, ret := 0 }) ∧
        (ret = 0 → ∃ port n, lastPort calls id = some port ∧ TextEnds text n ∧
          ev.filterMap PortEvent.written =
            (textBytes text n).map (fun b => (port + DATA_REG, b)) ∧
          ∀ before p b after, ev = before ++ .outb p b :: after → ∃ l sts,
            before = l ++ [.inb (port + LINE_STS_REG) sts] ∧ isTxEmpty sts = true) ∧
        (ret ≠ 0 → ev = [])) ∧
      ∀ m id rx_cb,
        (∀ i : Fin SERIAL_CNT, i.val ≠ id.toNat →
          (serialInit dev m id rx_cb ctx d).2.1 i = ctx i) ∧
        ((serialInit dev m id rx_cb ctx d).1 ≠ 0 →
          (serialInit dev m id rx_cb ctx d).2.1 = ctx) := by
  constructor
  · intro fuel id text ret d' ev hp
    rw [← lastPort_isSome]
    cases serialPrint_result h hp with
    | inl hok =>
        obtain ⟨⟨port, n, hlast, rfl, hends, hprinted⟩, hid⟩ := hok
        have hsome : (lastPort calls id).isSome := by rw [hlast]; rfl
        exact ⟨⟨fun _ => ⟨hid, hsome⟩, fun _ => rfl⟩,
          fun _ => ⟨port, n, hlast, hends, hprinted.written,
            fun _ _ _ _ hev => hprinted.preceded hev⟩,
          fun hne => absurd rfl hne⟩
    | inr herr =>
        obtain ⟨hlast, hret, hev⟩ := herr
        refine ⟨⟨fun h0 => absurd h0 hret, ?_⟩, fun h0 => absurd h0 hret, fun _ => hev⟩
        rintro ⟨hid, hsome⟩
        rw [hlast hid] at hsome
        cases hsome
  · intro m id rx_cb
    cases serialInit_result dev m id rx_cb ctx d with
    | inl herr =>
        rw [herr.2]
        exact ⟨fun _ _ => rfl, fun _ => rfl⟩
    | inr hok =>
        obtain ⟨hret, -, hid, hctx⟩ := hok
        rw [hctx]
        refine ⟨?_, fun hne => absurd hret hne⟩
        intro i hi
        exact Function.update_of_ne (fun heq => hi (congrArg Fin.val heq)) _ _

end calls

/-- A device that echoes what was written last and is always ready to send. -/
def echoSerial : Device (BitVec 8) where
  inb port d := (if port = 0x3FD then 0x20 else d, d)
  outb _ v _ := v
  insw _ n d := (List.replicate n 0, d)
  outsw _ _ d := d
  irq d := (0, d)
  insw_length _ _ _ := List.length_replicate

/-- A BIOS that has found one port, at `0x3F8`. -/
def onePort : Mem := fun x => if x = 0x400 then 0xF8 else if x = 0x401 then 0x03 else 0

/-- Two letters. -/
def okText : BitVec 64 → BitVec 8 := fun i => if i = 0 then 0x6F else if i = 1 then 0x6B else 0

def openedCtxs : SerialCtxs :=
  Function.update (fun _ => { rx_cb := 0, port := 0 }) ⟨0, by decide⟩
    { rx_cb := 0, port := 0x3F8 }

theorem serial_calls_ok :
    serialPrint echoSerial.traced 3 0 okText openedCtxs (0x0B, []) =
        some (0, (0x6B, [.inb 0x3FD 0x20, .outb 0x3F8 0x6F, .inb 0x3FD 0x20, .outb 0x3F8 0x6B])) ∧
      ∃ port n, lastPort [{ call := .init onePort 0 0, ret := 0 }] 0 = some port ∧
        TextEnds okText n ∧ [(0x3F8, 0x6F), (0x3F8, 0x6B)] =
          (textBytes okText n).map (fun b => (port + DATA_REG, b)) := by
  have hstart : SerialHistory echoSerial [] (fun _ => { rx_cb := 0, port := 0 }) 0 := .start 0
  have hinit := SerialHistory.init onePort 0 0 hstart
  have hprint : serialPrint echoSerial.traced 3 0 okText openedCtxs (0x0B, []) =
      some (0, (0x6B, [.inb 0x3FD 0x20, .outb 0x3F8 0x6F, .inb 0x3FD 0x20, .outb 0x3F8 0x6B])) :=
    rfl
  obtain ⟨-, hok, -⟩ := (serial_calls hinit).1 3 0 okText 0 0x6B _ hprint
  obtain ⟨port, n, hport, hends, hev, -⟩ := hok rfl
  exact ⟨hprint, port, n, hport, hends, hev⟩

end Ziemniak.Kernel
