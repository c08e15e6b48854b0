import Supryolo.Listening
import Supryolo.Miner.Responses

/-!
Messages and the reads that bring them. A read gathers every message it can
complete before the first of them is handled, and an exception on the way throws
all of them away. So what is left in the books when a connection ends depends on
how the bytes fell into reads. Reads of one byte complete each message by
itself, and a longer read that returns does what its bytes do one by one.
-/

namespace Supryolo.Miner

open Incremental

/-- What one call of `read` or `read_bytes` finds on the socket. -/
structure Read where
  chunks : List Bytes
  ending : Ending := .again

/-- The part of a connection that reads work on. -/
structure Intake (rows : Nat) (κ : Type) where
  link : Link κ
  ledger : Ledger rows
  received : List Json
  error : Option String := none

variable {rows : Nat} {κ : Type} {env : Env κ} {x y z : Intake rows κ}

namespace Intake

/-- The body of the message loop, without the publication of work. -/
def handle (x : Intake rows κ) (message : Json) : Intake rows κ :=
  match x.link with
  | .sv1 buffer state =>
      match state.receive message with
      | .error e => { x with error := some e }
      | .ok (_, state') =>
          { x with
            link := .sv1 buffer state', ledger := x.ledger.account message
            received := x.received ++ [message] }
  | .sv2 _ =>
      { x with ledger := x.ledger.account message, received := x.received ++ [message] }

/-- An exception ends the loop. -/
def handleAll (x : Intake rows κ) (messages : List Json) : Intake rows κ :=
  messages.foldl (fun x message => if x.error.isSome then x else x.handle message) x

def read (env : Env κ) (x : Intake rows κ) (r : Read) : Intake rows κ :=
  match x.link.read env r.chunks r.ending with
  | .error e => { x with error := some e }
  | .ok (messages, link) => { x with link := link }.handleAll messages

/-- Reads follow each other until one of them ends the connection. -/
def reads (env : Env κ) (x : Intake rows κ) (rs : List Read) : Intake rows κ :=
  rs.foldl (fun x r => if x.error.isSome then x else x.read env r) x

end Intake

/-- The bytes a read takes from the socket. -/
def Link.taken (link : Link κ) (r : Read) : Bytes :=
  match link with
  | .sv1 _ _ => r.chunks.flatten
  | .sv2 _ => r.chunks.headD []

def Link.stream (link : Link κ) (rs : List Read) : Bytes := (rs.map link.taken).flatten

/-- The finest way to read a stream: no two messages are completed by one
read. -/
def bytewise (bytes : Bytes) : List Read := bytes.map fun b => { chunks := [[b]] }

/-- The books after some more messages. -/
structure Extends (x y : Intake rows κ) (messages : List Json) : Prop where
  received : y.received = x.received ++ messages
  ledger : y.ledger = messages.foldl Ledger.account x.ledger

theorem Extends.refl (x : Intake rows κ) : Extends x x [] := ⟨by simp, rfl⟩

theorem Extends.trans {first later : List Json} (h : Extends x y first) (h' : Extends y z later) :
    Extends x z (first ++ later) := by
  refine ⟨?_, ?_⟩
  · rw [h'.received, h.received, List.append_assoc]
  · rw [h'.ledger, h.ledger, List.foldl_append]

namespace Intake

theorem handle_extends (x : Intake rows κ) (message : Json) :
    ∃ messages, Extends x (x.handle message) messages := by
  unfold handle
  split
  · split
    · exact ⟨[], by simp, rfl⟩
    · exact ⟨[message], rfl, rfl⟩
  · exact ⟨[message], rfl, rfl⟩

private theorem foldl_extends {α : Type} {f : Intake rows κ → α → Intake rows κ}
    (hf : ∀ x a, ∃ messages, Extends x (f x a) messages) (as : List α) (x : Intake rows κ) :
    ∃ messages, Extends x (as.foldl (fun x a => if x.error.isSome then x else f x a) x) messages := by
  induction as generalizing x with
  | nil => exact ⟨[], .refl x⟩
  | cons a as ih =>
      rw [List.foldl_cons]
      split
      · exact ih x
      · obtain ⟨first, hfirst⟩ := hf x a
        obtain ⟨later, hlater⟩ := ih (f x a)
        exact ⟨first ++ later, hfirst.trans hlater⟩

private theorem foldl_stopped {α : Type} {f : Intake rows κ → α → Intake rows κ} (as : List α)
    {x : Intake rows κ} (hx : x.error.isSome = true) :
    as.foldl (fun x a => if x.error.isSome then x else f x a) x = x := by
  induction as with
  | nil => rfl
  | cons a as ih => rw [List.foldl_cons, if_pos hx, ih]

theorem handleAll_extends (x : Intake rows κ) (messages : List Json) :
    ∃ handled, Extends x (x.handleAll messages) handled :=
  foldl_extends handle_extends messages x

theorem read_extends (env : Env κ) (x : Intake rows κ) (r : Read) :
    ∃ messages, Extends x (x.read env r) messages := by
  unfold read
  split
  · exact ⟨[], by simp, rfl⟩
  · obtain ⟨messages, h⟩ := handleAll_extends { x with link := _ } _
    exact ⟨messages, h.received, h.ledger⟩

theorem reads_extends (env : Env κ) (x : Intake rows κ) (rs : List Read) :
    ∃ messages, Extends x (x.reads env rs) messages :=
  foldl_extends (read_extends env) rs x

theorem reads_append (env : Env κ) (x : Intake rows κ) (rs rs' : List Read) :
    x.reads env (rs ++ rs') = (x.reads env rs).reads env rs' := List.foldl_append

theorem reads_bytewise_append (env : Env κ) (x : Intake rows κ) (first later : Bytes) :
    x.reads env (bytewise (first ++ later)) =
      (x.reads env (bytewise first)).reads env (bytewise later) := by
  rw [bytewise, List.map_append]
  exact reads_append env x _ _

theorem handleAll_append (x : Intake rows κ) (first later : List Json) :
    x.handleAll (first ++ later) = (x.handleAll first).handleAll later := List.foldl_append

theorem reads_stopped (hx : x.error.isSome = true) (rs : List Read) : x.reads env rs = x :=
  foldl_stopped rs hx

theorem handleAll_stopped (hx : x.error.isSome = true) (messages : List Json) :
    x.handleAll messages = x :=
  foldl_stopped messages hx

theorem reads_cons (hx : x.error = none) (r : Read) (rs : List Read) :
    x.reads env (r :: rs) = (x.read env r).reads env rs := by
  rw [reads, List.foldl_cons, if_neg (by simp [hx])]
  rfl

theorem handleAll_cons (hx : x.error = none) (message : Json) (rest : List Json) :
    x.handleAll (message :: rest) = (x.handle message).handleAll rest := by
  rw [handleAll, List.foldl_cons, if_neg (by simp [hx])]
  rfl

def setBuffer (x : Intake rows κ) (buffer : Text) : Intake rows κ :=
  match x.link with
  | .sv1 _ state => { x with link := .sv1 buffer state }
  | .sv2 _ => x

theorem setBuffer_sv1 {before : Text} {state : StratumState} (hlink : x.link = .sv1 before state)
    (buffer : Text) : x.setBuffer buffer = { x with link := .sv1 buffer state } := by
  unfold setBuffer
  rw [hlink]

@[simp] theorem setBuffer_error (x : Intake rows κ) (buffer : Text) :
    (x.setBuffer buffer).error = x.error := by
  unfold setBuffer
  split <;> rfl

@[simp] theorem setBuffer_ledger (x : Intake rows κ) (buffer : Text) :
    (x.setBuffer buffer).ledger = x.ledger := by
  unfold setBuffer
  split <;> rfl

@[simp] theorem setBuffer_setBuffer (x : Intake rows κ) (first second : Text) :
    (x.setBuffer first).setBuffer second = x.setBuffer second := by
  cases hlink : x.link <;> simp [setBuffer, hlink]

/-- Messages are handled without a look at the buffer. -/
theorem handle_setBuffer (x : Intake rows κ) (message : Json) (buffer : Text) :
    (x.setBuffer buffer).handle message = (x.handle message).setBuffer buffer := by
  cases hlink : x.link with
  | sv1 before state =>
      cases hreceive : state.receive message <;>
        simp [handle, setBuffer, hlink, hreceive]
  | sv2 session => simp [handle, setBuffer, hlink]

theorem handleAll_setBuffer (x : Intake rows κ) (messages : List Json) (buffer : Text) :
    (x.setBuffer buffer).handleAll messages = (x.handleAll messages).setBuffer buffer := by
  induction messages generalizing x with
  | nil => rfl
  | cons message rest ih =>
      cases herror : x.error with
      | some e =>
          rw [handleAll_stopped (by simp [herror]), handleAll_stopped (by simp [herror])]
      | none =>
          rw [handleAll_cons (by simp [herror]), handleAll_cons herror, handle_setBuffer, ih]

/-- The protocol does not change. -/
theorem handleAll_sv1 {buffer : Text} {state : StratumState} (hlink : x.link = .sv1 buffer state)
    (messages : List Json) : ∃ state', (x.handleAll messages).link = .sv1 buffer state' := by
  induction messages generalizing x state with
  | nil => exact ⟨state, hlink⟩
  | cons message rest ih =>
      cases herror : x.error with
      | some e => exact ⟨state, by rw [handleAll_stopped (by simp [herror]), hlink]⟩
      | none =>
          rw [handleAll_cons herror]
          cases hreceive : state.receive message with
          | error e =>
              have hnext : (x.handle message).link = .sv1 buffer state := by
                simp [handle, hlink, hreceive]
              exact ih hnext
          | ok result =>
              have hnext : (x.handle message).link = .sv1 buffer result.2 := by
                simp [handle, hlink, hreceive]
              exact ih hnext

/-- Read byte by byte, `bytes` bring `messages` one after the other, and leave
`buffer'` if all of them are handled. -/
def Trickles (rows : Nat) (env : Env κ) (buffer : Text) (bytes : Bytes) (messages : List Json)
    (buffer' : Text) : Prop :=
  ∀ (x : Intake rows κ) (state : StratumState), x.error = none → x.link = .sv1 buffer state →
    (x.reads env (bytewise bytes)).setBuffer buffer' = (x.setBuffer buffer').handleAll messages ∧
      (((x.setBuffer buffer').handleAll messages).error = none →
        x.reads env (bytewise bytes) = (x.setBuffer buffer').handleAll messages)

theorem Trickles.nil (buffer : Text) : Trickles rows env buffer [] [] buffer := by
  intro x state herror hlink
  have hsame : x.setBuffer buffer = x := by rw [setBuffer_sv1 hlink, ← hlink]
  exact ⟨rfl, fun _ => hsame.symm⟩

theorem Trickles.append {buffer left buffer' : Text} {first later : Bytes}
    {messages more : List Json} (h : Trickles rows env buffer first messages left)
    (h' : Trickles rows env left later more buffer') :
    Trickles rows env buffer (first ++ later) (messages ++ more) buffer' := by
  intro x state herror hlink
  obtain ⟨hfirst, hall⟩ := h x state herror hlink
  -- The first messages, handled with the last buffer in place.
  have hmiddle : (x.setBuffer buffer').handleAll messages =
      ((x.setBuffer left).handleAll messages).setBuffer buffer' := by
    rw [← setBuffer_setBuffer x left, handleAll_setBuffer]
  rw [reads_bytewise_append, handleAll_append, hmiddle]
  cases hmid : ((x.setBuffer left).handleAll messages).error with
  | some e =>
      have hstopped : (((x.setBuffer left).handleAll messages).setBuffer buffer').error.isSome =
          true := by simp [hmid]
      have herror' : (x.reads env (bytewise first)).error.isSome = true := by
        rw [← setBuffer_error _ left, hfirst, hmid]
        rfl
      rw [handleAll_stopped hstopped, reads_stopped herror', ← hfirst, setBuffer_setBuffer]
      refine ⟨rfl, fun hnone => ?_⟩
      rw [setBuffer_error, ← setBuffer_error _ left, hfirst, hmid] at hnone
      cases hnone
  | none =>
      have hx₁ := hall hmid
      obtain ⟨state₁, hlink₁⟩ := handleAll_sv1
        (x := x.setBuffer left) (by rw [setBuffer_sv1 hlink]) messages
      rw [hx₁]
      exact h' _ state₁ hmid hlink₁

def text (bytes : Bytes) : Text := bytes.map fun byte => Char.ofNat byte.toNat

/-- What is left of the buffer is the beginning of a line. -/
private theorem run_left {parse : Parser} {buffer left : Text} {messages : List Json}
    (h : (lineDecoder parse).run () buffer = .ok (messages, (), left)) :
    '\n' ∉ left ∧ left.length ≤ buffer.length := by
  have hruns := Decoder.run_iff.mp h
  refine ⟨lineStep_wait_iff.mp hruns.stops, ?_⟩
  have hle : messages.length * 0 + left.length ≤ buffer.length :=
    hruns.items_le fun _ _ _ _ _ hstep => ((lineDecoder parse).shrinks hstep).le
  simpa using hle

private theorem readChunk_ok {parse : Parser} {out out' : List Json} {buffer chunk left : Text}
    (h : readChunk parse (out, buffer) chunk = .ok (out', left)) :
    (buffer ++ chunk).length ≤ 65536 ∧ ∃ messages,
      (lineDecoder parse).run () (buffer ++ chunk) = .ok (messages, (), left) ∧
      out' = out ++ messages := by
  obtain ⟨hlimit, h⟩ := Loops.guard_eq_ok.mp h
  obtain ⟨⟨messages, _, rest⟩, hrun, h⟩ := Loops.bind_eq_ok.mp h
  obtain ⟨-, h⟩ := Loops.guard_eq_ok.mp h
  obtain ⟨rfl, rfl⟩ := Prod.mk.inj (Loops.pure_eq_ok.mp h)
  exact ⟨Nat.not_lt.mp hlimit, messages, hrun, rfl⟩

/-- No complete line stays in the buffer. -/
theorem read_left {parse : Parser} {buffer left : Text} {chunks : List Text} {ending : Ending}
    {messages : List Json} (hbuffer : '\n' ∉ buffer)
    (h : Miner.read parse buffer chunks ending = .ok (messages, left)) : '\n' ∉ left := by
  obtain ⟨result, hresult, h⟩ := Loops.bind_eq_ok.mp h
  have hchunks : '\n' ∉ result.2 := by
    refine Loops.foldlM_invariant (I := fun result : List Json × Text => '\n' ∉ result.2) ?_
      hbuffer hresult
    rintro ⟨out, rest⟩ chunk ⟨out', rest'⟩ - hchunk
    obtain ⟨-, first, hrun, -⟩ := readChunk_ok hchunk
    exact (run_left hrun).1
  cases ending with
  | again =>
      obtain rfl := Loops.pure_eq_ok.mp h
      exact hchunks
  | closed => cases h
  | failed => cases h

/-- One more character completes at most one line. -/
private theorem run_char {parse : Parser} {buffer left : Text} {c : Char} {messages : List Json}
    (hbuffer : '\n' ∉ buffer)
    (h : (lineDecoder parse).run () (buffer ++ [c]) = .ok (messages, (), left)) :
    messages.length ≤ 1 := by
  by_cases hc : c = '\n'
  · subst hc
    have hend : (lineDecoder parse).run () [] = .ok ([], (), []) := rfl
    have hstep : ∀ o, (lineDecoder parse).step () (buffer ++ ['\n']) = .ok (.take () [] o) →
        messages.length ≤ 1 := by
      intro o hstep
      rw [Decoder.run_take hstep, hend] at h
      obtain ⟨rfl, -⟩ := Prod.mk.inj (Except.ok.inj h)
      cases o <;> simp
    have hline : (lineDecoder parse).step () (buffer ++ ['\n']) =
        if buffer = [] then .ok (.take () [] none)
        else (parse buffer).map fun message => .take () [] (some message) :=
      lineStep_newline parse hbuffer
    by_cases hempty : buffer = []
    · rw [if_pos hempty] at hline
      exact hstep none hline
    · rw [if_neg hempty] at hline
      cases hparse : parse buffer with
      | error e =>
          rw [hparse] at hline
          rw [Decoder.run_error hline] at h
          cases h
      | ok message =>
          rw [hparse] at hline
          exact hstep (some message) hline
  · have hwait : (lineDecoder parse).step () (buffer ++ [c]) = .ok .wait :=
      lineStep_wait_iff.mpr (by simp [hbuffer, Ne.symm hc])
    rw [Decoder.run_wait hwait] at h
    obtain ⟨rfl, -⟩ := Prod.mk.inj (Except.ok.inj h)
    simp

theorem trickles_byte {buffer left : Text} {b : UInt8} {messages : List Json}
    (hbuffer : '\n' ∉ buffer) (hlimit : (buffer ++ text [b]).length ≤ 65536)
    (h : (lineDecoder env.parse).run () (buffer ++ text [b]) = .ok (messages, (), left)) :
    Trickles rows env buffer [b] messages left := by
  have hfew := run_char hbuffer h
  intro x state herror hlink
  have hchunk : readChunk env.parse ([], buffer) (text [b]) = .ok (messages, left) := by
    simp only [readChunk, List.nil_append, if_neg (Nat.not_lt.mpr hlimit), h,
      Loops.ok_bind]
    rw [if_neg (by omega)]
    rfl
  have hlinkRead : x.link.read env [[b]] .again = .ok (messages, .sv1 left state) := by
    have hread : Miner.read env.parse buffer [text [b]] .again = .ok (messages, left) := by
      rw [Miner.read, List.foldlM_cons, hchunk]
      rfl
    rw [hlink]
    exact Link.read_sv1 hread
  have hread : x.reads env (bytewise [b]) = (x.setBuffer left).handleAll messages := by
    rw [bytewise, List.map_singleton, reads_cons herror, read]
    simp only [hlinkRead, setBuffer_sv1 hlink]
    rfl
  refine ⟨?_, fun _ => hread⟩
  rw [hread, ← handleAll_setBuffer, setBuffer_setBuffer]

theorem trickles_chunk {bytes : Bytes} {buffer left : Text} {messages : List Json}
    (hbuffer : '\n' ∉ buffer) (hlimit : (buffer ++ text bytes).length ≤ 65536)
    (h : (lineDecoder env.parse).run () (buffer ++ text bytes) = .ok (messages, (), left)) :
    Trickles rows env buffer bytes messages left := by
  induction bytes generalizing buffer messages with
  | nil =>
      have hwait : (lineDecoder env.parse).step () buffer = .ok .wait := lineStep_wait_iff.mpr hbuffer
      rw [text, List.map_nil, List.append_nil, Decoder.run_wait hwait] at h
      cases h
      exact .nil _
  | cons b bytes ih =>
      have hcut : buffer ++ text (b :: bytes) = (buffer ++ text [b]) ++ text bytes := by
        simp [text]
      rw [hcut] at h hlimit
      obtain ⟨first, mid, rest, later, hfirst, hlater, rfl⟩ := Decoder.run_split h
      obtain ⟨hrest, hle⟩ := run_left hfirst
      rw [List.length_append] at hlimit
      have hbyte : Trickles rows env buffer [b] first rest :=
        trickles_byte hbuffer (by omega) hfirst
      have hbytes : Trickles rows env rest bytes later left :=
        ih hrest (by rw [List.length_append]; omega) hlater
      exact hbyte.append hbytes

theorem trickles_chunks {chunks : List Bytes} {buffer left : Text} {out gathered : List Json}
    (hbuffer : '\n' ∉ buffer)
    (h : (chunks.map text).foldlM (readChunk env.parse) (out, buffer) = .ok (gathered, left)) :
    ∃ messages, gathered = out ++ messages ∧
      Trickles rows env buffer chunks.flatten messages left := by
  induction chunks generalizing buffer out with
  | nil =>
      obtain ⟨rfl, rfl⟩ := Prod.mk.inj (Loops.pure_eq_ok.mp h)
      exact ⟨[], by simp, .nil buffer⟩
  | cons chunk chunks ih =>
      rw [List.map_cons, List.foldlM_cons] at h
      obtain ⟨⟨out', rest⟩, hchunk, h⟩ := Loops.bind_eq_ok.mp h
      obtain ⟨hlimit, first, hrun, rfl⟩ := readChunk_ok hchunk
      obtain ⟨later, rfl, hlater⟩ := ih (run_left hrun).1 h
      refine ⟨first ++ later, by simp, ?_⟩
      exact (trickles_chunk hbuffer hlimit hrun).append hlater

theorem handleAll_sv2 {session : Sv2.Session κ} (hlink : x.link = .sv2 session)
    (herror : x.error = none) (messages : List Json) :
    x.handleAll messages =
      { x with
        ledger := messages.foldl Ledger.account x.ledger, received := x.received ++ messages } := by
  induction messages generalizing x with
  | nil => simp [handleAll]
  | cons message rest ih =>
      have hnext : x.handle message =
          { x with ledger := x.ledger.account message, received := x.received ++ [message] } := by
        simp only [handle, hlink]
      rw [handleAll_cons herror, hnext, ih (x := { x with
        ledger := x.ledger.account message, received := x.received ++ [message] }) hlink herror]
      simp

/-- Reads that the session accepts are handled to the end. -/
theorem reads_history {chunks : List Bytes} {outs : List (List Json)}
    {session session' : Sv2.Session κ} (hlink : x.link = .sv2 session) (herror : x.error = none)
    (h : Histories.history (Sv2.Session.receive env.foreign) session chunks = .ok (outs, session')) :
    x.reads env (chunks.map fun chunk => { chunks := [chunk] }) =
      { x with link := .sv2 session' }.handleAll outs.flatten := by
  induction chunks generalizing x session outs with
  | nil =>
      obtain ⟨rfl, rfl⟩ := Prod.mk.inj (Loops.pure_eq_ok.mp h)
      rw [← hlink]
      rfl
  | cons chunk chunks ih =>
      obtain ⟨out, middle, later, hreceive, hlater, rfl⟩ := Histories.history_cons.mp h
      have hread : x.read env { chunks := [chunk] } = { x with link := .sv2 middle }.handleAll out := by
        have hlinkRead : x.link.read env [chunk] .again = .ok (out, .sv2 middle) := by
          rw [hlink]
          exact Link.read_sv2 hreceive
        simp only [read, hlinkRead]
      have hfirst := handleAll_sv2 (x := { x with link := .sv2 middle }) rfl herror out
      have hall := handleAll_sv2 (x := { x with link := .sv2 session' }) rfl herror
        (out :: later).flatten
      have hrest := handleAll_sv2 (x := { x with
        link := .sv2 session', ledger := out.foldl Ledger.account x.ledger
        received := x.received ++ out }) rfl herror later.flatten
      rw [List.map_cons, reads_cons herror, hread, hfirst, hall,
        ih (x := { x with
          link := .sv2 middle, ledger := out.foldl Ledger.account x.ledger
          received := x.received ++ out }) rfl herror hlater, hrest]
      simp

end Intake

/-- Between two reads: the buffer holds no complete line, or the channel is open
and the transport waits. -/
def Link.Steady (env : Env κ) : Link κ → Prop
  | .sv1 buffer _ => '\n' ∉ buffer
  | .sv2 session => session.phase = 3 ∧ session.Waits env.foreign

namespace Intake

/-- `z` is what the bytes of a read do one by one, `y` what the read does. A
handler that throws throws at the same message. -/
structure Follows (env : Env κ) (x y z : Intake rows κ) : Prop where
  ledger : z.ledger = y.ledger
  error : z.error = y.error
  same : y.error = none → z = y
  steady : y.error = none → y.link.Steady env
  taken : y.link.taken = x.link.taken

theorem follows_sv1 {buffer : Text} {state : StratumState} (hlink : x.link = .sv1 buffer state)
    (hbuffer : '\n' ∉ buffer) (herror : x.error = none) {r : Read} {messages : List Json}
    {link : Link κ} (hread : x.link.read env r.chunks r.ending = .ok (messages, link)) :
    Follows env x (x.read env r) (x.reads env (bytewise r.chunks.flatten)) := by
  have hthis : x.read env r = { x with link := link }.handleAll messages := by
    simp only [read, hread]
  rw [hlink] at hread
  obtain ⟨⟨out, left⟩, hlines, hread⟩ := Loops.bind_eq_ok.mp hread
  obtain ⟨rfl, rfl⟩ := Prod.mk.inj (Loops.pure_eq_ok.mp hread)
  have hleft : '\n' ∉ left := read_left hbuffer hlines
  obtain ⟨gathered, hgathered, hending⟩ := Loops.bind_eq_ok.mp hlines
  cases hagain : r.ending with
  | closed => rw [hagain] at hending; cases hending
  | failed => rw [hagain] at hending; cases hending
  | again =>
      rw [hagain] at hending
      obtain rfl := Loops.pure_eq_ok.mp hending
      obtain ⟨handled, hout, htrickles⟩ := trickles_chunks hbuffer hgathered
      obtain rfl : out = handled := hout
      obtain ⟨hset, hall⟩ := htrickles x state herror hlink
      rw [← setBuffer_sv1 hlink] at hthis
      obtain ⟨state', hlink'⟩ := handleAll_sv1
        (x := x.setBuffer left) (by rw [setBuffer_sv1 hlink]) out
      rw [← hthis] at hset hall hlink'
      refine ⟨?_, ?_, hall, fun _ => ?_, ?_⟩
      · rw [← hset, setBuffer_ledger]
      · rw [← hset, setBuffer_error]
      · rw [hlink']
        exact hleft
      · rw [hlink', hlink]
        rfl

theorem follows_sv2 {session : Sv2.Session κ} (hlink : x.link = .sv2 session)
    (hopen : session.phase = 3) (hwaits : session.Waits env.foreign) (herror : x.error = none)
    {r : Read} {messages : List Json} {link : Link κ}
    (hread : x.link.read env r.chunks r.ending = .ok (messages, link)) :
    Follows env x (x.read env r) (x.reads env (bytewise (r.chunks.headD []))) := by
  have hthis : x.read env r = { x with link := link }.handleAll messages := by
    simp only [read, hread]
  rw [hlink] at hread
  obtain ⟨bytes, hbytes, hread⟩ := Loops.bind_eq_ok.mp hread
  obtain ⟨⟨out, session'⟩, hreceive, hread⟩ := Loops.bind_eq_ok.mp hread
  obtain ⟨rfl, rfl⟩ := Prod.mk.inj (Loops.pure_eq_ok.mp hread)
  have hhead : r.chunks.headD [] = bytes := by
    cases hchunks : r.chunks with
    | cons chunk rest =>
        rw [hchunks] at hbytes
        exact Loops.pure_eq_ok.mp hbytes
    | nil =>
        cases hending : r.ending <;> rw [hchunks, hending] at hbytes
        · exact Loops.pure_eq_ok.mp hbytes
        · cases hbytes
        · cases hbytes
  have hsizes : ∀ chunk ∈ bytes.map fun b => [b], chunk.length ≤ 8192 := by
    intro chunk hchunk
    obtain ⟨b, -, rfl⟩ := List.mem_map.mp hchunk
    rw [List.length_singleton]
    omega
  obtain ⟨outs, houts, rfl⟩ := Sv2.Session.receive_pieces hopen hwaits hreceive
    (bytes.map fun b => [b]) hsizes (by simp [List.flatten_eq_flatMap, List.flatMap_map])
  have hsame : x.reads env (bytewise bytes) = x.read env r := by
    rw [hthis, ← reads_history hlink herror houts, List.map_map]
    rfl
  have hafter := handleAll_sv2 (x := { x with link := .sv2 session' }) rfl herror outs.flatten
  rw [← hthis] at hafter
  rw [hhead, hsame]
  refine ⟨rfl, rfl, fun _ => rfl, fun _ => ?_, ?_⟩
  · rw [Sv2.Session.receive, if_neg (by omega)] at hreceive
    rw [hafter]
    exact ⟨Sv2.Session.receiveReady_open hopen hreceive, hwaits.receiveReady hreceive⟩
  · rw [hafter, hlink]
    rfl

theorem follows (hsteady : x.link.Steady env) (herror : x.error = none) {r : Read}
    {messages : List Json} {link : Link κ}
    (hread : x.link.read env r.chunks r.ending = .ok (messages, link)) :
    Follows env x (x.read env r) (x.reads env (bytewise (x.link.taken r))) := by
  unfold Link.taken
  cases hlink : x.link with
  | sv1 buffer state =>
      rw [hlink] at hsteady
      exact follows_sv1 hlink hsteady herror hread
  | sv2 session =>
      rw [hlink] at hsteady
      exact follows_sv2 hlink hsteady.1 hsteady.2 herror hread

end Intake

end Supryolo.Miner
