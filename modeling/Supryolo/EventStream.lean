import Supryolo.Frames
import Supryolo.Lib.Retained
import Supryolo.Lib.Segments

/-!
Model of `Dashboard::Impl` in `dashboard.cpp`. The thread of the dashboard draws
and writes the log while the mining thread reports events to it; both hold the
mutex only for the moment in which they exchange them. The escapes that open and
close the alternate screen are left out.
-/

namespace Supryolo.Dashboard

open Retained Segments Loops

variable {F : Type}

/-- Whether the constructor takes over the terminal. -/
def interactive (mode : Text) (terminal : Bool) (term : Option Text) : Except String Bool := do
  if mode ≠ "auto".toList ∧ mode ≠ "on".toList ∧ mode ≠ "off".toList then
    throw "TUI mode must be auto, on or off"
  pure (mode ≠ "off".toList && terminal && (mode = "on".toList || term.any (· ≠ "dumb".toList)))

/-- Where the thread stands in its loop. -/
inductive Phase (F : Type)
  | top
  | writing (copy : DashboardView F) (lines : List Event)
  | checking
  | sleeping
  | ended

/-- What is written to the standard output: a frame, or the lines of the events
and sometimes a summary. -/
inductive Output
  | frame (text : Except String Text)
  | lines (text : Text)
  | summary (text : Text)

structure Stream (F : Type) where
  view : DashboardView F
  queued : List Event := []
  quit : Bool := false
  active : Bool := false
  raw : Bool := false
  log : Option Text := none
  offset : UInt64 := 0
  stopRequested : Bool := false
  phase : Phase F := .top
  output : List Output := []

/-- The calls of the mining thread and the moves of the dashboard's own. -/
inductive Action (F : Type)
  | event (time message : Text) (severity : Severity)
  | update (view : DashboardView F)
  | stop
  | swap
  | write (keys : List Char) (columns rows : Nat) (tick : F) (summaryDue : Bool)
  | check
  | wake

def makeEvent (time message : Text) (severity : Severity) : Event :=
  ⟨time, consoleSafe message, severity⟩

def logLine (e : Event) : Text := e.time ++ ' ' :: consoleSafe e.message

def logText (lines : List Event) : Text := lines.flatMap fun e => logLine e ++ ['\n']

/-- The keys that are waiting, one after another. -/
def readKey (state : Bool × UInt64) (c : Char) : Bool × UInt64 :=
  let quit := state.1 || c = 'q' || c = 'Q'
  let offset := if c = 'j' then state.2 + 1 else state.2
  (quit, if c = 'k' ∧ offset ≠ 0 then offset - 1 else offset)

/-- The terminal is as large as it says, or 100 by 30. -/
def windowSize (columns rows : Nat) : Size :=
  ⟨if columns ≠ 0 then columns else 100, if rows ≠ 0 then rows else 30⟩

namespace Stream

def event (s : Stream F) (e : Event) : Stream F :=
  { s with
    view := { s.view with events := push 200 s.view.events e }
    queued := push 1000 s.queued e }

def update (s : Stream F) (view : DashboardView F) : Stream F :=
  { s with view := { view with events := s.view.events } }

/-- The part of a round that does not hold the mutex. -/
def write (dbl : Doubles F) (s : Stream F) (copy : DashboardView F) (lines : List Event)
    (keys : List Char) (columns rows : Nat) (tick : F) (summaryDue : Bool) : Stream F :=
  let s := { s with log := s.log.map (· ++ logText lines), phase := .checking }
  if s.active then
    let state := if s.raw then keys.foldl readKey (s.quit, s.offset) else (s.quit, s.offset)
    let size := windowSize columns rows
    { s with
      quit := state.1
      offset := state.2
      output := s.output ++
        [.frame (renderDashboard dbl copy size.width size.height tick state.2.toNat)] }
  else
    { s with
      output := s.output ++
        .lines (logText lines) :: if summaryDue then [.summary (summary dbl copy)] else [] }

/-- The mining thread does nothing more once it has asked for the end. -/
def step (dbl : Doubles F) (s : Stream F) (action : Action F) : Option (Stream F) :=
  match action, s.phase with
  | .event time message severity, _ =>
      if s.stopRequested then none else some (s.event (makeEvent time message severity))
  | .update view, _ => if s.stopRequested then none else some (s.update view)
  | .stop, _ => if s.stopRequested then none else some { s with stopRequested := true }
  | .swap, .top => some { s with phase := .writing s.view s.queued, queued := [] }
  | .write keys columns rows tick summaryDue, .writing copy lines =>
      some (s.write dbl copy lines keys columns rows tick summaryDue)
  | .check, .checking =>
      some { s with phase := if s.stopRequested then .ended else .sleeping }
  | .wake, .sleeping => some { s with phase := .top }
  | _, _ => none

def start (dbl : Doubles F) (active raw : Bool) (log : Option Text) : Stream F where
  view := { elapsed := dbl.zero }
  active := active
  raw := raw
  log := log

/-- The constructor: `log` is what the log file holds, if one is named, or that it
cannot be opened. -/
def construct (dbl : Doubles F) (mode : Text) (terminal : Bool) (term : Option Text) (raw : Bool)
    (log : Except String (Option Text)) : Except String (Stream F) := do
  let log ← log
  let active ← interactive mode terminal term
  pure (start dbl active (active && raw) log)

def run (dbl : Doubles F) (s : Stream F) (actions : List (Action F)) : Option (Stream F) :=
  actions.foldlM (step dbl) s

end Stream

def count (b : Batches Event) : Action F → Batches Event
  | .event time message severity => b.put (makeEvent time message severity)
  | .swap => b.drain
  | _ => b

/-- The events as the thread has taken them. -/
def batches (actions : List (Action F)) : Batches Event := actions.foldl count {}

def Action.isWrite : Action F → Bool
  | .write _ _ _ _ _ => true
  | _ => false

def writes (actions : List (Action F)) : Nat := actions.countP Action.isWrite

/-- The batches of the rounds that have been written. -/
def written (actions : List (Action F)) : List (List Event) :=
  (batches actions).done.take (writes actions)

/-- The events of the view that each of these rounds draws. -/
def shown (batches : List (List Event)) : List (List Event) :=
  (List.range batches.length).map fun i => (batches.take (i + 1)).flatten.rtake 200

/-- The size of the terminal in each of the rounds. -/
def sizes (actions : List (Action F)) : List Size :=
  actions.flatMap fun a =>
    match a with
    | .write _ columns rows _ _ => [windowSize columns rows]
    | _ => []

theorem batches_concat (actions : List (Action F)) (a : Action F) :
    batches (actions ++ [a]) = count (batches actions) a := by
  rw [batches, List.foldl_append]
  rfl

theorem writes_concat (actions : List (Action F)) (a : Action F) :
    writes (actions ++ [a]) = writes actions + if a.isWrite then 1 else 0 := by
  rw [writes, List.countP_append, List.countP_singleton]
  rfl

theorem sizes_concat (actions : List (Action F)) (a : Action F) :
    sizes (actions ++ [a]) = sizes actions ++ sizes [a] := List.flatMap_append ..

theorem sizes_of_not_write {a : Action F} (h : a.isWrite = false) : sizes [a] = [] := by
  cases a <;> first | rfl | cases h

/-- What the thread has taken and not yet written. -/
def Phase.Holds (phase : Phase F) (b : Batches Event) (written : Nat) : Prop :=
  match phase with
  | .writing copy lines => ∃ earlier last, b.done = earlier ++ [last] ∧ written = earlier.length ∧
      lines = last.rtake 1000 ∧ copy.events = (earlier.flatten ++ last).rtake 200
  | _ => written = b.done.length

/-- What a frame is drawn from: the size of the terminal and a view of these
events. -/
def Renders (dbl : Doubles F) (drawn : Size × List Event) (o : Output) : Prop :=
  ∃ (copy : DashboardView F) (tick : F) (offset : Nat), copy.events = drawn.2 ∧
    o = .frame (renderDashboard dbl copy drawn.1.width drawn.1.height tick offset)

/-- The events as they are printed, without the summaries. -/
def Output.text : Output → Text
  | .lines text => text
  | _ => []

/-- What the queues, the log and the output hold of the events reported so far. -/
structure Kept (dbl : Doubles F) (first : Stream F) (actions : List (Action F)) (s : Stream F) :
    Prop where
  active : s.active = first.active
  raw : s.raw = first.raw
  events : s.view.events = (batches actions).all.rtake 200
  queued : s.queued = (batches actions).since.rtake 1000
  phase : s.phase.Holds (batches actions) (writes actions)
  log : s.log = first.log.map
    (· ++ (written actions).flatMap fun batch => logText (batch.rtake 1000))
  rounds : (sizes actions).length = (shown (written actions)).length
  frames : first.active = true →
    List.Forall₂ (Renders dbl) ((sizes actions).zip (shown (written actions))) s.output
  lines : first.active = false →
    s.output.flatMap Output.text = (written actions).flatMap fun batch => logText (batch.rtake 1000)

theorem Kept.start (dbl : Doubles F) (active raw : Bool) (log : Option Text) :
    Kept dbl (Stream.start dbl active raw log) [] (Stream.start dbl active raw log) where
  active := rfl
  raw := rfl
  events := (List.rtake_nil 200).symm
  queued := (List.rtake_nil 1000).symm
  phase := rfl
  log := by
    have hnothing : written ([] : List (Action F)) = [] := rfl
    cases log <;> simp [Stream.start, hnothing]
  rounds := rfl
  frames := fun _ => .nil
  lines := fun _ => rfl

section

variable (dbl : Doubles F) (s : Stream F) (copy : DashboardView F) (lines : List Event)
  (keys : List Char) (columns rows : Nat) (tick : F) (summaryDue : Bool)

/-- A round keeps what the two threads share. -/
theorem Stream.write_shared :
    let next := s.write dbl copy lines keys columns rows tick summaryDue
    next.active = s.active ∧ next.raw = s.raw ∧ next.view = s.view ∧ next.queued = s.queued ∧
      next.stopRequested = s.stopRequested ∧ next.phase = .checking ∧
      next.log = s.log.map (· ++ logText lines) := by
  unfold Stream.write
  dsimp only
  split <;> exact ⟨rfl, rfl, rfl, rfl, rfl, rfl, rfl⟩

theorem Stream.write_output :
    let next := s.write dbl copy lines keys columns rows tick summaryDue
    (s.active = true → ∃ frame, Renders dbl (windowSize columns rows, copy.events) frame ∧
      next.output = s.output ++ [frame]) ∧
      (s.active = false →
        next.output.flatMap Output.text = s.output.flatMap Output.text ++ logText lines) := by
  unfold Stream.write
  dsimp only
  constructor
  · intro hactive
    rw [if_pos hactive]
    exact ⟨_, ⟨copy, tick, _, rfl, rfl⟩, rfl⟩
  · intro hactive
    rw [if_neg (by simp [hactive])]
    cases summaryDue <;> simp [Output.text]

end

/-- What an action can do. -/
inductive Stream.Moves (dbl : Doubles F) (s : Stream F) : Action F → Stream F → Prop
  | event (time message : Text) (severity : Severity) (hstop : s.stopRequested = false) :
      Moves dbl s (.event time message severity) (s.event (makeEvent time message severity))
  | update (view : DashboardView F) (hstop : s.stopRequested = false) :
      Moves dbl s (.update view) (s.update view)
  | stop (hstop : s.stopRequested = false) : Moves dbl s .stop { s with stopRequested := true }
  | swap (hphase : s.phase = .top) :
      Moves dbl s .swap { s with phase := .writing s.view s.queued, queued := [] }
  | write (copy : DashboardView F) (lines : List Event) (keys : List Char) (columns rows : Nat)
      (tick : F) (summaryDue : Bool) (hphase : s.phase = .writing copy lines) :
      Moves dbl s (.write keys columns rows tick summaryDue)
        (s.write dbl copy lines keys columns rows tick summaryDue)
  | check (hphase : s.phase = .checking) :
      Moves dbl s .check { s with phase := if s.stopRequested then .ended else .sleeping }
  | wake (hphase : s.phase = .sleeping) : Moves dbl s .wake { s with phase := .top }

theorem Stream.moves_of_step {dbl : Doubles F} {s next : Stream F} {a : Action F}
    (h : s.step dbl a = some next) : s.Moves dbl a next := by
  unfold step at h
  split at h
  · split_ifs at h with hstop
    obtain rfl := Option.some.inj h
    exact .event _ _ _ (Bool.eq_false_iff.mpr hstop)
  · split_ifs at h with hstop
    obtain rfl := Option.some.inj h
    exact .update _ (Bool.eq_false_iff.mpr hstop)
  · split_ifs at h with hstop
    obtain rfl := Option.some.inj h
    exact .stop (Bool.eq_false_iff.mpr hstop)
  · rename_i hphase
    obtain rfl := Option.some.inj h
    exact .swap hphase
  · rename_i hphase
    obtain rfl := Option.some.inj h
    exact .write _ _ _ _ _ _ _ hphase
  · rename_i hphase
    obtain rfl := Option.some.inj h
    exact .check hphase
  · rename_i hphase
    obtain rfl := Option.some.inj h
    exact .wake hphase
  · cases h

theorem shown_concat (earlier : List (List Event)) (last : List Event) :
    shown (earlier ++ [last]) = shown earlier ++ [(earlier.flatten ++ last).rtake 200] := by
  have hwhole : (earlier ++ [last]).take (earlier.length + 1) = earlier ++ [last] :=
    List.take_of_length_le (by simp)
  rw [shown, List.length_append, List.length_singleton, List.range_succ, List.map_append,
    List.map_singleton, hwhole, List.flatten_append, List.flatten_singleton]
  have hearlier : (List.range earlier.length).map (fun i =>
      ((earlier ++ [last]).take (i + 1)).flatten.rtake 200) = shown earlier := by
    apply List.map_congr_left
    intro i hi
    rw [List.take_append_of_le_length (List.mem_range.mp hi)]
  rw [hearlier]

theorem Phase.Holds.same {phase : Phase F} {b b' : Batches Event} {written : Nat}
    (h : phase.Holds b written) (hdone : b'.done = b.done) : phase.Holds b' written := by
  unfold Phase.Holds at h ⊢
  rw [hdone]
  exact h

/-- Nothing is written by an action that leaves log and output alone. -/
theorem Kept.unwritten {dbl : Doubles F} {first s next : Stream F} {actions : List (Action F)}
    {a : Action F} (h : Kept dbl first actions s)
    (hwritten : written (actions ++ [a]) = written actions)
    (hsizes : sizes (actions ++ [a]) = sizes actions)
    (hactive : next.active = s.active) (hraw : next.raw = s.raw) (hlog : next.log = s.log)
    (houtput : next.output = s.output)
    (hevents : next.view.events = (batches (actions ++ [a])).all.rtake 200)
    (hqueued : next.queued = (batches (actions ++ [a])).since.rtake 1000)
    (hphase : next.phase.Holds (batches (actions ++ [a])) (writes (actions ++ [a]))) :
    Kept dbl first (actions ++ [a]) next where
  active := hactive.trans h.active
  raw := hraw.trans h.raw
  events := hevents
  queued := hqueued
  phase := hphase
  log := by rw [hlog, h.log, hwritten]
  rounds := by rw [hsizes, hwritten, h.rounds]
  frames := by rw [houtput, hsizes, hwritten]; exact h.frames
  lines := by rw [houtput, hwritten]; exact h.lines

/-- All actions but `swap` and `write` keep what has been taken and what has
been written. -/
theorem Kept.untaken {dbl : Doubles F} {first s next : Stream F} {actions : List (Action F)}
    {a : Action F} (h : Kept dbl first actions s)
    (hdone : (count (batches actions) a).done = (batches actions).done)
    (hwrite : a.isWrite = false) (hactive : next.active = s.active) (hraw : next.raw = s.raw)
    (hlog : next.log = s.log) (houtput : next.output = s.output)
    (hevents : next.view.events = (count (batches actions) a).all.rtake 200)
    (hqueued : next.queued = (count (batches actions) a).since.rtake 1000)
    (hphase : next.phase.Holds (batches actions) (writes actions)) :
    Kept dbl first (actions ++ [a]) next := by
  rw [← batches_concat] at hdone hevents hqueued
  have hwrites : writes (actions ++ [a]) = writes actions := by
    rw [writes_concat, hwrite]
    rfl
  have hwritten : written (actions ++ [a]) = written actions := by
    rw [written, hwrites, hdone]
    rfl
  have hsizes : sizes (actions ++ [a]) = sizes actions := by
    rw [sizes_concat, sizes_of_not_write hwrite, List.append_nil]
  apply h.unwritten hwritten hsizes hactive hraw hlog houtput hevents hqueued
  rw [hwrites]
  exact hphase.same hdone

theorem Kept.swap {dbl : Doubles F} {first s : Stream F} {actions : List (Action F)}
    (h : Kept dbl first actions s) (hphase : s.phase = .top) :
    Kept dbl first (actions ++ [.swap]) { s with phase := .writing s.view s.queued, queued := [] } := by
  have hall : writes actions = (batches actions).done.length := by
    have hheld := h.phase
    rwa [hphase] at hheld
  have hwritten : written (actions ++ [Action.swap]) = written actions := by
    rw [written, writes_concat, batches_concat]
    exact List.take_append_of_le_length hall.le
  have hsizes : sizes (actions ++ [Action.swap]) = sizes actions := by
    rw [sizes_concat]
    exact List.append_nil _
  refine h.unwritten hwritten hsizes rfl rfl rfl rfl ?_ ?_ ?_
  · rw [batches_concat, count, Batches.all_drain]
    exact h.events
  · rw [batches_concat]
    exact (List.rtake_nil 1000).symm
  · rw [batches_concat, writes_concat]
    exact ⟨_, _, rfl, hall, h.queued, h.events⟩

theorem Kept.write {dbl : Doubles F} {first s : Stream F} {actions : List (Action F)}
    {copy : DashboardView F} {lines : List Event} (h : Kept dbl first actions s)
    (hphase : s.phase = .writing copy lines) (keys : List Char) (columns rows : Nat) (tick : F)
    (summaryDue : Bool) : Kept dbl first (actions ++ [.write keys columns rows tick summaryDue])
      (s.write dbl copy lines keys columns rows tick summaryDue) := by
  obtain ⟨earlier, last, hdone, hcount, hlines, hcopy⟩ :
      (Phase.writing copy lines).Holds (batches actions) (writes actions) := hphase ▸ h.phase
  have hb := batches_concat actions (.write keys columns rows tick summaryDue)
  have hw := writes_concat actions (.write keys columns rows tick summaryDue)
  have hbefore : written actions = earlier := by
    rw [written, hdone, hcount]
    exact List.take_left
  have hafter : written (actions ++ [Action.write keys columns rows tick summaryDue]) =
      earlier ++ [last] := by
    rw [written, hw, hb, hcount]
    change (batches actions).done.take (earlier.length + 1) = _
    rw [hdone]
    exact List.take_of_length_le (by simp)
  obtain ⟨hactive, hraw, hview, hqueued, -, hchecking, hlog⟩ :=
    s.write_shared dbl copy lines keys columns rows tick summaryDue
  obtain ⟨hframe, htext⟩ := s.write_output dbl copy lines keys columns rows tick summaryDue
  have hdrawn : shown (written (actions ++ [Action.write keys columns rows tick summaryDue])) =
      shown (written actions) ++ [copy.events] := by
    rw [hafter, hbefore, shown_concat, hcopy]
  have hsizes : sizes (actions ++ [Action.write keys columns rows tick summaryDue]) =
      sizes actions ++ [windowSize columns rows] := by
    rw [sizes_concat]
    rfl
  refine ⟨hactive.trans h.active, hraw.trans h.raw, ?_, ?_, ?_, ?_, ?_, ?_, ?_⟩
  · rw [hview, hb]
    exact h.events
  · rw [hqueued, hb]
    exact h.queued
  · rw [hchecking, hw, hb, hcount]
    change earlier.length + 1 = (batches actions).done.length
    rw [hdone, List.length_append, List.length_singleton]
  · rw [hlog, h.log, Option.map_map, hafter, hbefore, hlines]
    congr 1
    funext before
    simp
  · rw [hsizes, hdrawn, List.length_append, List.length_append, h.rounds]
    rfl
  · intro h1
    obtain ⟨frame, hrenders, hnext⟩ := hframe (h.active.trans h1)
    rw [hnext, hsizes, hdrawn, List.zip_append h.rounds]
    exact List.rel_append (h.frames h1) (.cons hrenders .nil)
  · intro h1
    rw [htext (h.active.trans h1), h.lines h1, hafter, hbefore, hlines]
    simp

theorem Kept.step {dbl : Doubles F} {first s next : Stream F} {actions : List (Action F)}
    {a : Action F} (h : Kept dbl first actions s) (hstep : s.step dbl a = some next) :
    Kept dbl first (actions ++ [a]) next := by
  have hheld := h.phase
  cases Stream.moves_of_step hstep with
  | event time message severity hstop =>
      refine h.untaken rfl rfl rfl rfl rfl rfl ?_ ?_ hheld
      · rw [count, Batches.all_put, ← push_rtake, ← h.events]
        rfl
      · rw [count, Batches.put, ← push_rtake, ← h.queued]
        rfl
  | update view hstop => exact h.untaken rfl rfl rfl rfl rfl rfl h.events h.queued hheld
  | stop hstop => exact h.untaken rfl rfl rfl rfl rfl rfl h.events h.queued hheld
  | swap hphase => exact h.swap hphase
  | write copy lines keys columns rows tick summaryDue hphase =>
      exact h.write hphase keys columns rows tick summaryDue
  | check hphase =>
      refine h.untaken rfl rfl rfl rfl rfl rfl h.events h.queued ?_
      rw [hphase] at hheld
      dsimp only
      split_ifs <;> exact hheld
  | wake hphase =>
      refine h.untaken rfl rfl rfl rfl rfl rfl h.events h.queued ?_
      rw [hphase] at hheld
      exact hheld

/-- The moves the thread has left once it has been asked to end. -/
def Phase.left : Phase F → Nat
  | .sleeping => 4
  | .top => 3
  | .writing _ _ => 2
  | .checking => 1
  | .ended => 0

theorem Stream.Moves.left {dbl : Doubles F} {s next : Stream F} {a : Action F}
    (h : s.Moves dbl a next) (hstop : s.stopRequested = true) :
    next.stopRequested = true ∧ s.phase.left = next.phase.left + 1 := by
  cases h with
  | event time message severity hgoing => cases hgoing.symm.trans hstop
  | update view hgoing => cases hgoing.symm.trans hstop
  | stop hgoing => cases hgoing.symm.trans hstop
  | swap hphase => exact ⟨hstop, by rw [hphase]; rfl⟩
  | write copy lines keys columns rows tick summaryDue hphase =>
      obtain ⟨-, -, -, -, hkept, hchecking, -⟩ :=
        s.write_shared dbl copy lines keys columns rows tick summaryDue
      exact ⟨hkept.trans hstop, by rw [hphase, hchecking]; rfl⟩
  | check hphase =>
      refine ⟨hstop, ?_⟩
      rw [hphase, if_pos hstop]
      rfl
  | wake hphase => exact ⟨hstop, by rw [hphase]; rfl⟩

/-- The output is a frame for a terminal of this size, and lists the newest of the
events in it. -/
def Output.Lists (drawn : Size × List Event) (o : Output) : Prop :=
  ∃ rows : List Text, rows.length = (clamp drawn.1.height 5 200).toNat ∧
    (∀ row ∈ rows, Row (clamp drawn.1.width 20 500).toNat row) ∧
    Displays ⟨clamp drawn.1.width 20 500, clamp drawn.1.height 5 200⟩ drawn.2 rows ∧
    o = .frame (.ok ("\x1b[H".toList ++ "\r\n".toList.intercalate rows ++ "\x1b[0m".toList))

end Supryolo.Dashboard
