import Supryolo.Lib.Histories
import Supryolo.Lib.Segments
import Supryolo.Miner.Socket

/-!
The lines of an SV1 connection. However the bytes fall into pieces and the
pieces into reads, the messages are those of the non-empty lines, each returned
by the read that received its newline. The size limit is looked at before the
lines are taken out of the buffer, so a line must leave room for one more piece.
-/

namespace Supryolo.Miner

open Histories Incremental Loops Segments

variable {parse : Parser}

/-- The lines that a text completes, without the empty ones. -/
def messageLines (text : Text) : List Text := (completed '\n' text).filter (· ≠ [])

/-- After `before`, the lines of a piece and those of what follows it. -/
theorem messageLines_after (before piece more : Text) :
    messageLines (remainder '\n' before ++ (piece ++ more)) =
      messageLines (remainder '\n' before ++ piece) ++
        messageLines (remainder '\n' (before ++ piece) ++ more) := by
  rw [messageLines, ← List.append_assoc, completed_append, List.filter_append, ← remainder_append]
  rfl

/-- The messages that the lines of a text are parsed to. -/
def Spells (parse : Parser) (text : Text) (messages : List Json) : Prop :=
  (messageLines text).map parse = messages.map .ok

theorem Spells.after {before piece more : Text} {messages later : List Json}
    (h : Spells parse (remainder '\n' before ++ piece) messages)
    (h' : Spells parse (remainder '\n' (before ++ piece) ++ more) later) :
    Spells parse (remainder '\n' before ++ (piece ++ more)) (messages ++ later) := by
  unfold Spells at h h' ⊢
  rw [messageLines_after, List.map_append, List.map_append, h, h']

theorem Spells.split {before piece more : Text} {messages : List Json}
    (h : Spells parse (remainder '\n' before ++ (piece ++ more)) messages) :
    ∃ first later, messages = first ++ later ∧
      Spells parse (remainder '\n' before ++ piece) first ∧
      Spells parse (remainder '\n' (before ++ piece) ++ more) later := by
  rw [Spells, messageLines_after, List.map_append] at h
  obtain ⟨first, later, rfl, hfirst, hlater⟩ := List.map_eq_append_iff.mp h.symm
  exact ⟨first, later, rfl, hfirst.symm, hlater.symm⟩

theorem Spells.length {text : Text} {messages : List Json} (h : Spells parse text messages) :
    messages.length = (messageLines text).length := by
  have hlength := congrArg List.length h
  rwa [List.length_map, List.length_map, eq_comm] at hlength

/-- Nothing is completed while a line goes on. -/
theorem spells_remainder (text : Text) : Spells parse (remainder '\n' text) [] := by
  rw [Spells, messageLines, completed_of_not_mem (not_mem_remainder _ _)]
  rfl

theorem exists_spells {text : Text}
    (h : ∀ line ∈ messageLines text, ∃ message, parse line = .ok message) :
    ∃ messages, Spells parse text messages := by
  unfold Spells
  generalize messageLines text = lines at h
  induction lines with
  | nil => exact ⟨[], rfl⟩
  | cons line rest ih =>
      obtain ⟨message, hmessage⟩ := h line List.mem_cons_self
      obtain ⟨messages, hmessages⟩ := ih fun line hline => h line (List.mem_cons_of_mem _ hline)
      exact ⟨message :: messages, by rw [List.map_cons, List.map_cons, hmessage, hmessages]⟩

/-- The buffer gives up its lines and keeps the rest. -/
theorem run_lines {buffer : Text} {messages : List Json} (h : Spells parse buffer messages) :
    (lineDecoder parse).run () buffer = .ok (messages, (), remainder '\n' buffer) := by
  induction hlength : buffer.length using Nat.strongRecOn generalizing buffer messages with
  | _ n ih =>
      rcases cases_separator '\n' buffer with hnone | ⟨line, rest, rfl, hline⟩
      · obtain rfl : messages = [] := by
          rw [Spells, messageLines, completed_of_not_mem hnone] at h
          exact List.map_eq_nil_iff.mp h.symm
        rw [remainder_of_not_mem hnone]
        exact Decoder.run_wait (lineStep_wait_iff.mpr hnone)
      · have hshorter : rest.length < n := by
          rw [← hlength, List.length_append, List.length_cons]
          omega
        have hnewline := lineStep_newline parse hline
        have hwhole : line ++ '\n' :: rest = (line ++ ['\n']) ++ rest := by simp
        rw [Spells, messageLines, completed_cons hline] at h
        rw [remainder_cons hline, hwhole]
        by_cases hempty : line = []
        · rw [if_pos hempty] at hnewline
          rw [hempty, List.filter_cons_of_neg (by simp)] at h
          rw [Decoder.run_take ((lineDecoder parse).stable hnewline rest), List.nil_append,
            ih rest.length hshorter h rfl]
          rfl
        · rw [if_neg hempty] at hnewline
          rw [List.filter_cons_of_pos (by simpa using hempty), List.map_cons] at h
          obtain ⟨message, later, rfl, hmessage, hlater⟩ := List.map_eq_cons_iff.mp h.symm
          rw [← hmessage] at hnewline
          rw [Decoder.run_take ((lineDecoder parse).stable hnewline rest), List.nil_append,
            ih rest.length hshorter hlater.symm rfl]
          rfl

/-- One piece, after `before` has been received. -/
theorem readChunk_lines {before piece : Text} {out messages : List Json}
    (h : Spells parse (remainder '\n' before ++ piece) messages)
    (hroom : (remainder '\n' before).length ≤ 57344) (hpiece : piece.length ≤ 8192)
    (hflood : out.length + messages.length ≤ 1024) :
    readChunk parse (out, remainder '\n' before) piece =
      .ok (out ++ messages, remainder '\n' (before ++ piece)) := by
  have hlimit : ¬ (remainder '\n' before ++ piece).length > 65536 := by
    rw [List.length_append]
    omega
  have hfew : ¬ (out ++ messages).length > 1024 := by
    rw [List.length_append]
    omega
  simp only [readChunk, if_neg hlimit, run_lines h, ok_bind, if_neg hfew]
  rw [remainder_append '\n' before piece]
  rfl

/-- A stream whose lines leave room for a piece. -/
def Fits (stream : Text) : Prop := ∀ line ∈ stream.splitOn '\n', line.length ≤ 57344

theorem Fits.remainder {before more : Text} (h : Fits (before ++ more)) :
    (remainder '\n' before).length ≤ 57344 := by
  obtain ⟨line, hline, hprefix⟩ := remainder_prefix '\n' before more
  exact hprefix.length_le.trans (h line hline)

/-- The pieces of one read. -/
theorem readChunks_lines {before more : Text} {pieces : List Text} {out messages : List Json}
    (h : Spells parse (remainder '\n' before ++ pieces.flatten) messages)
    (hfits : Fits (before ++ pieces.flatten ++ more)) (hpieces : ∀ piece ∈ pieces, piece.length ≤ 8192)
    (hflood : out.length + messages.length ≤ 1024) :
    pieces.foldlM (readChunk parse) (out, remainder '\n' before) =
      .ok (out ++ messages, remainder '\n' (before ++ pieces.flatten)) := by
  induction pieces generalizing before out messages with
  | nil =>
      obtain rfl : messages = [] := by
        rw [List.flatten_nil, List.append_nil] at h
        have hsame := h.symm.trans (spells_remainder before)
        exact List.map_eq_nil_iff.mp hsame
      rw [List.flatten_nil, List.append_nil, List.append_nil]
      rfl
  | cons piece pieces ih =>
      rw [List.flatten_cons] at h hfits ⊢
      rw [List.append_assoc] at hfits
      obtain ⟨first, later, rfl, hfirst, hlater⟩ := h.split
      rw [List.length_append] at hflood
      have hchunk := readChunk_lines hfirst hfits.remainder (hpieces piece List.mem_cons_self)
        (by omega : out.length + first.length ≤ 1024)
      have hrest := ih hlater (by simpa using hfits)
        (fun piece hpiece => hpieces piece (List.mem_cons_of_mem _ hpiece))
        (by rw [List.length_append]; omega : (out ++ first).length + later.length ≤ 1024)
      rw [List.foldlM_cons, hchunk, ok_bind, hrest, List.append_assoc, List.append_assoc]

theorem read_lines {before more : Text} {pieces : List Text} {messages : List Json}
    (h : Spells parse (remainder '\n' before ++ pieces.flatten) messages)
    (hfits : Fits (before ++ pieces.flatten ++ more)) (hpieces : ∀ piece ∈ pieces, piece.length ≤ 8192)
    (hflood : messages.length ≤ 1024) :
    read parse (remainder '\n' before) pieces .again =
      .ok (messages, remainder '\n' (before ++ pieces.flatten)) := by
  have hread : pieces.foldlM (readChunk parse) ([], remainder '\n' before) =
      .ok ([] ++ messages, remainder '\n' (before ++ pieces.flatten)) :=
    readChunks_lines h hfits hpieces (by simpa using hflood)
  rw [read, hread]
  rfl

/-- What a connection has received after some reads. -/
def received (calls : List (List Text)) : Text := (calls.map List.flatten).flatten

theorem received_concat (calls : List (List Text)) (pieces : List Text) :
    received (calls ++ [pieces]) = received calls ++ pieces.flatten := by
  simp [received]

theorem received_take_drop (calls : List (List Text)) (k : Nat) :
    received (calls.take k) ++ received (calls.drop k) = received calls := by
  rw [received, received, ← List.flatten_append, ← List.map_append, List.take_append_drop, received]

/-- One read, from one wait for the socket to the next. -/
def readCall (parse : Parser) (buffer : Text) (pieces : List Text) :
    Except String (List Json × Text) :=
  read parse buffer pieces .again

/-- No read completes more than 1024 non-empty lines. -/
def Paced (calls : List (List Text)) : Prop :=
  ∀ k < calls.length, (messageLines (received (calls.take (k + 1)))).length ≤
    (messageLines (received (calls.take k))).length + 1024

theorem Paced.take {calls : List (List Text)} (h : Paced calls) (n : Nat) :
    Paced (calls.take n) := by
  intro k hk
  rw [List.length_take] at hk
  rw [List.take_take, List.take_take, Nat.min_eq_left (by omega), Nat.min_eq_left (by omega)]
  exact h k (by omega)

theorem history_lines {calls : List (List Text)} {more : Text}
    (hfits : Fits (received calls ++ more))
    (hparse : ∀ line ∈ messageLines (received calls), ∃ message, parse line = .ok message)
    (hpieces : ∀ pieces ∈ calls, ∀ piece ∈ pieces, piece.length ≤ 8192) (hpaced : Paced calls) :
    ∃ outs, history (readCall parse) [] calls = .ok (outs, remainder '\n' (received calls)) ∧
      Spells parse (received calls) outs.flatten := by
  induction calls using List.reverseRecOn generalizing more with
  | nil => exact ⟨[], rfl, rfl⟩
  | append_singleton calls pieces ih =>
      have hsplit := messageLines_after [] (received calls) pieces.flatten
      simp only [remainder_of_not_mem List.not_mem_nil, List.nil_append] at hsplit
      rw [received_concat] at hfits hparse ⊢
      rw [hsplit] at hparse
      have hearlier := hpaced.take calls.length
      rw [List.take_left' rfl] at hearlier
      obtain ⟨outs, hhistory, houts⟩ := ih (by rwa [← List.append_assoc])
        (fun line hline => hparse line (List.mem_append_left _ hline))
        (fun pieces hmem => hpieces pieces (List.mem_append_left _ hmem)) hearlier
      obtain ⟨messages, hmessages⟩ :
          ∃ messages, Spells parse (remainder '\n' (received calls) ++ pieces.flatten) messages :=
        exists_spells fun line hline => hparse line (List.mem_append_right _ hline)
      have hflood : messages.length ≤ 1024 := by
        have hlast := hpaced calls.length (by simp)
        rw [List.take_of_length_le (by simp), List.take_left' rfl, received_concat, hsplit,
          List.length_append] at hlast
        rw [hmessages.length]
        omega
      have hread : readCall parse (remainder '\n' (received calls)) pieces =
          .ok (messages, remainder '\n' (received calls ++ pieces.flatten)) :=
        read_lines hmessages hfits (hpieces pieces (by simp)) hflood
      refine ⟨outs ++ [messages], ?_, ?_⟩
      · exact append_history hhistory (history_cons.mpr ⟨_, _, _, hread, rfl, rfl⟩)
      · rw [List.flatten_append, List.flatten_singleton, Spells, hsplit, List.map_append,
          List.map_append, houts, hmessages]

/-- The reassembly of lines does not depend on how a stream falls into pieces and
reads. If its lines leave room for a piece and are parsed, no read throws; after
any number of reads the messages returned are those of the lines whose newline
has been received, and the buffer holds what follows the last newline. -/
theorem segmentation_independent {calls : List (List Text)} (hfits : Fits (received calls))
    (hparse : ∀ line ∈ messageLines (received calls), ∃ message, parse line = .ok message)
    (hpieces : ∀ pieces ∈ calls, ∀ piece ∈ pieces, piece.length ≤ 8192) (hpaced : Paced calls) :
    ∃ outs : List (List Json), outs.length = calls.length ∧ ∀ k ≤ calls.length,
      history (readCall parse) [] (calls.take k) =
          .ok (outs.take k, remainder '\n' (received (calls.take k))) ∧
        Spells parse (received (calls.take k)) (outs.take k).flatten := by
  obtain ⟨outs, hwhole, -⟩ := history_lines (by simpa using hfits : Fits (received calls ++ []))
    hparse hpieces hpaced
  refine ⟨outs, history_length hwhole, ?_⟩
  intro k hk
  have hsplit := messageLines_after [] (received (calls.take k)) (received (calls.drop k))
  simp only [remainder_of_not_mem List.not_mem_nil, List.nil_append, received_take_drop] at hsplit
  rw [hsplit] at hparse
  rw [← received_take_drop calls k] at hfits
  obtain ⟨outs', hhistory, houts⟩ := history_lines hfits
    (fun line hline => hparse line (List.mem_append_left _ hline))
    (fun pieces hmem => hpieces pieces (List.mem_of_mem_take hmem)) (hpaced.take k)
  obtain ⟨middle, hmiddle, -⟩ := history_take hwhole k
  rw [hhistory] at hmiddle
  obtain ⟨rfl, -⟩ := Prod.mk.inj (Except.ok.inj hmiddle)
  exact ⟨hhistory, houts⟩

/-- Two lines and the beginning of a third, in two reads that cut the second. -/
def sampleReads : List (List Text) :=
  [["null\n".toList, "\nnu".toList], ["ll\n".toList, "n".toList]]

theorem segmentation_independent_sample :
    ∃ outs : List (List Json), outs.length = sampleReads.length ∧ ∀ k ≤ sampleReads.length,
      history (readCall fun _ => .ok .null) [] (sampleReads.take k) =
          .ok (outs.take k, remainder '\n' (received (sampleReads.take k))) ∧
        Spells (fun _ => .ok .null) (received (sampleReads.take k)) (outs.take k).flatten := by
  refine segmentation_independent ?_ ?_ ?_ ?_
  · unfold Fits
    decide
  · exact fun _ _ => ⟨_, rfl⟩
  · decide
  · unfold Paced
    decide

end Supryolo.Miner
