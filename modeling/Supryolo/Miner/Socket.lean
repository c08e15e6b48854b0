import Supryolo.Json
import Supryolo.Lib.Incremental
import Supryolo.Lib.Loops

/-!
Model of the reading side of `Socket` in `miner.cpp`: bytes are gathered into a
buffer and cut into lines, each line a JSON document. The parser, with its
nesting limit, is a parameter. One call of `read` keeps receiving until the
socket would block; a failure anywhere in it throws away what it has gathered.
-/

namespace Supryolo.Miner

open Incremental

abbrev Parser := Text → Except String Json

/-- How a sequence of `recv` calls ends: nothing more for now, end of stream,
or an error. -/
inductive Ending
  | again
  | closed
  | failed
  deriving DecidableEq

/-- Complete lines are taken from the buffer one at a time; empty ones are
skipped. -/
def lineStep (parse : Parser) (_ : Unit) (buffer : Text) :
    Except String (Move Unit Char Json) :=
  if '\n' ∈ buffer then
    let line := buffer.takeWhile (· ≠ '\n')
    let rest := buffer.drop (line.length + 1)
    if line = [] then .ok (.take () rest none)
    else (parse line).map fun message => .take () rest (some message)
  else .ok .wait

private theorem lineStep_append (parse : Parser) {buffer : Text} (hline : '\n' ∈ buffer)
    (more : Text) :
    lineStep parse () (buffer ++ more) =
      if buffer.takeWhile (· ≠ '\n') = [] then
        .ok (.take () (buffer.drop ((buffer.takeWhile (· ≠ '\n')).length + 1) ++ more) none)
      else (parse (buffer.takeWhile (· ≠ '\n'))).map fun message =>
        .take () (buffer.drop ((buffer.takeWhile (· ≠ '\n')).length + 1) ++ more) (some message) := by
  have hshort : ¬ (buffer.takeWhile (· ≠ '\n')).length = buffer.length := by
    intro hall
    have hnewline := List.all_takeWhile (p := fun c : Char => decide (c ≠ '\n')) (l := buffer)
    have hprefix := List.takeWhile_prefix (l := buffer) (fun c : Char => decide (c ≠ '\n'))
    rw [List.all_eq_true, hprefix.eq_of_length hall] at hnewline
    exact absurd (hnewline _ hline) (by simp)
  have htake : (buffer ++ more).takeWhile (· ≠ '\n') = buffer.takeWhile (· ≠ '\n') := by
    rw [List.takeWhile_append, if_neg]
    intro hall
    exact hshort hall
  have hlength : (buffer.takeWhile (· ≠ '\n')).length ≤ buffer.length :=
    (List.takeWhile_prefix _).length_le
  rw [lineStep, if_pos (List.mem_append_left more hline), htake]
  dsimp only
  rw [List.drop_append_of_le_length (by omega)]

/-- Lines are cut off at the first newline, whatever follows it. -/
def lineDecoder (parse : Parser) : Decoder Unit Char Json String where
  step := lineStep parse
  stands := by
    intro _ buffer
    by_cases hline : '\n' ∈ buffer
    · have happend := lineStep_append parse hline
      have hnow := happend []
      rw [List.append_nil, List.append_nil] at hnow
      have hshrink : (buffer.drop ((buffer.takeWhile (· ≠ '\n')).length + 1)).length <
          buffer.length := by
        have hpositive := List.length_pos_of_mem hline
        rw [List.length_drop]
        omega
      rw [hnow]
      by_cases hempty : buffer.takeWhile (· ≠ '\n') = []
      · rw [if_pos hempty]
        refine ⟨hshrink, ?_⟩
        intro more
        rw [happend, if_pos hempty]
      · rw [if_neg hempty]
        cases hparse : parse (buffer.takeWhile (· ≠ '\n')) with
        | error e =>
            intro more
            rw [happend, if_neg hempty, hparse]
            rfl
        | ok message =>
            refine ⟨hshrink, ?_⟩
            intro more
            rw [happend, if_neg hempty, hparse]
            rfl
    · rw [lineStep, if_neg hline]
      trivial

theorem lineStep_newline (parse : Parser) {line : Text} (hline : '\n' ∉ line) :
    lineStep parse () (line ++ ['\n']) =
      if line = [] then .ok (.take () [] none)
      else (parse line).map fun message => .take () [] (some message) := by
  have htake : (line ++ ['\n']).takeWhile (fun c => decide (c ≠ '\n')) = line := by
    rw [List.takeWhile_append_of_pos]
    · simp
    · intro c hc
      exact decide_eq_true fun heq => hline (heq ▸ hc)
  have hdrop : (line ++ ['\n']).drop (line.length + 1) = [] := by simp
  rw [lineStep, if_pos (by simp), htake]
  dsimp only
  rw [hdrop]

theorem lineStep_wait_iff {parse : Parser} {buffer : Text} :
    lineStep parse () buffer = .ok .wait ↔ '\n' ∉ buffer := by
  unfold lineStep
  split
  · rename_i hline
    refine iff_of_false ?_ (not_not.mpr hline)
    dsimp only
    split
    · intro h
      cases h
    · cases parse (buffer.takeWhile (· ≠ '\n')) <;> intro h <;> cases h
  · rename_i hline
    exact iff_of_true rfl hline

/-- The effect of one successful `recv` on what is gathered and the buffer. -/
def readChunk (parse : Parser) (state : List Json × Text) (chunk : Text) :
    Except String (List Json × Text) := do
  let buffer := state.2 ++ chunk
  if buffer.length > 65536 then throw "Stratum line too large"
  let (messages, _, rest) ← (lineDecoder parse).run () buffer
  let out := state.1 ++ messages
  if out.length > 1024 then throw "Stratum message flood"
  pure (out, rest)

/-- One call of `Socket::read`. -/
def read (parse : Parser) (buffer : Text) (chunks : List Text) (ending : Ending) :
    Except String (List Json × Text) := do
  let result ← chunks.foldlM (readChunk parse) ([], buffer)
  match ending with
  | .again => pure result
  | .closed => throw "pool closed connection"
  | .failed => throw "pool receive failed"

/-- One call of `Socket::read_bytes`, which receives once. -/
def readBytes (chunks : List Bytes) (ending : Ending) : Except String Bytes :=
  match chunks, ending with
  | chunk :: _, _ => pure chunk
  | [], .again => pure []
  | [], _ => throw "SV2 pool disconnected"

end Supryolo.Miner
