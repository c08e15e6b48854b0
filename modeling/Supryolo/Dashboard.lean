import Supryolo.Devices
import Supryolo.Lib.Screens

/-!
Model of `console_safe`, `render_dashboard` and the plain summary in
`dashboard.cpp`. A frame is drawn into one grid of cells, which is then written
out row by row. Floating point is a type of its own with the texts and numbers
that are made from it.
-/

namespace Supryolo.Dashboard

open Screens

/-- Characters are bytes. -/
def consoleSafe (s : Text) : Text :=
  s.flatMap fun c =>
    if 32 ≤ c.toNat ∧ c.toNat < 127 then [c] else if 128 ≤ c.toNat then ['?'] else []

inductive Severity
  | info
  | success
  | warning
  | error
  deriving DecidableEq

structure Event where
  time : Text
  message : Text
  severity : Severity := .info

/-- The readings that are shown. `F` are the doubles. -/
structure GpuReadings (F : Type) where
  temperature : Option UInt32 := none
  fanPercent : Option UInt32 := none
  coreMhz : Option UInt32 := none
  memoryMhz : Option UInt32 := none
  watts : Option F := none

structure DeviceView (F : Type) where
  label : Text
  name : Text
  hashesPerSecond : F
  accepted : UInt64 := 0
  rejected : UInt64 := 0
  sensors : GpuReadings F := {}

structure DashboardView (F : Type) where
  coin : Text := "BTCB2".toList
  pool : Text := []
  worker : Text := []
  state : Text := "CONNECTING".toList
  difficulty : Text := "--".toList
  elapsed : F
  hashes : UInt64 := 0
  accepted : UInt64 := 0
  rejected : UInt64 := 0
  stale : UInt64 := 0
  blockCandidates : UInt64 := 0
  pending : UInt64 := 0
  warnTemperature : UInt32 := 75
  alarmTemperature : UInt32 := 85
  devices : List (DeviceView F) := []
  events : List Event := []

/-- What is computed from doubles: texts (a decimal one to so many places), the
sum of the rates, the hashes for each second if there was one, and the animation
time as `int(tick * 3)` and `uint64_t(tick * 4)`. -/
structure Doubles (F : Type) where
  zero : F
  add : F → F → F
  average : UInt64 → F → F
  rate : F → Text
  duration : F → Text
  decimal : F → Nat → Text
  rain : F → Int
  blink : F → UInt64

inductive Color
  | dim
  | green
  | bright
  | cyan
  | yellow
  | red
  | alarm
  deriving DecidableEq

structure Cell where
  c : Char := ' '
  color : Color := .dim

/-- The table of escapes. -/
def colors : Color → Text
  | .dim => "\x1b[0;32;40m".toList
  | .green => "\x1b[0;32;40m".toList
  | .bright => "\x1b[0;1;92;40m".toList
  | .cyan => "\x1b[0;1;96;40m".toList
  | .yellow => "\x1b[0;1;93;40m".toList
  | .red => "\x1b[0;1;91;40m".toList
  | .alarm => "\x1b[1;97;41m".toList

def number (n : Nat) : Text := Nat.toDigits 10 n

def value (n : Option UInt32) (unit : String) : Text :=
  match n with
  | some n => number n.toNat ++ unit.toList
  | none => "--".toList

structure Size where
  width : Int
  height : Int

section

variable (s : Size)

/-- The characters of a text from column `x` on. -/
def putChars (y : Int) (color : Color) (maximum : Int) : Text → Int → Int → Canvas Cell Unit
  | [], _, _ => pure ()
  | c :: rest, x, count =>
      if count ≥ maximum ∨ x ≥ s.width then pure ()
      else do
        if x ≥ 0 then store (y * s.width + x) ⟨c, color⟩
        putChars y color maximum rest (x + 1) (count + 1)

def put (x y : Int) (text : Text) (color : Color) (maximum : Int) : Canvas Cell Unit :=
  if y < 0 ∨ y ≥ s.height then pure ()
  else putChars s y color maximum (consoleSafe text) x 0

/-- The defaults of `maximum` and of `color`. -/
def putAll (x y : Int) (text : Text) (color : Color) : Canvas Cell Unit := put s x y text color 1000

def putGreen (x y : Int) (text : Text) : Canvas Cell Unit := putAll s x y text .green

def box (x y w h : Int) (title : Text) : Canvas Cell Unit :=
  if w < 2 ∨ h < 2 then pure ()
  else do
    let edge : Text := '+' :: List.replicate (w - 2).toNat '-' ++ ['+']
    putAll s x y edge .dim
    putAll s x (y + h - 1) edge .dim
    each (List.range' 1 (h - 2).toNat) fun j => do
      putAll s x (y + j) ['|'] .dim
      putAll s (x + w - 1) (y + j) ['|'] .dim
    put s (x + 2) y (' ' :: title ++ [' ']) .bright (w - 4)

variable {F : Type} (dbl : Doubles F) (v : DashboardView F) (tick : F)

def hot (d : DeviceView F) : Bool := d.sensors.temperature.any (· ≥ v.alarmTemperature)

def warm (d : DeviceView F) : Bool := d.sensors.temperature.any (· ≥ v.warnTemperature)

/-- Alarms blink. -/
def blinking : Bool := dbl.blink tick &&& 1 == 0

def smallDevices : List (DeviceView F) → Int → Canvas Cell Unit
  | [], _ => pure ()
  | d :: rest, y =>
      if y ≥ s.height - 1 then pure ()
      else do
        putAll s 1 y
          (d.label ++ ' ' :: dbl.rate d.hashesPerSecond ++ ' ' :: value d.sensors.temperature "C" ++
            if hot v d && blinking dbl tick then " ALARM".toList else [])
          (if hot v d then .red else .green)
        smallDevices rest (y + 1)

def renderSmall : Canvas Cell Unit := do
  putAll s 1 0 ("SUPRYOLO // ".toList ++ v.coin) .bright
  putAll s 1 1 (v.state ++ "  ".toList ++ dbl.duration v.elapsed) .cyan
  putGreen s 1 2
    ("A ".toList ++ number v.accepted.toNat ++ " R ".toList ++ number v.rejected.toNat ++
      " S ".toList ++ number v.stale.toNat)
  smallDevices s dbl v tick v.devices 3
  put s 0 (s.height - 1) "Resize >=76x23 | q quit".toList .dim s.width

def top : Int := 9

def logHeight : Int := max 7 (s.height / 3)

def logTop : Int := s.height - logHeight s - 1

def devicesHeight : Int := logTop s - top

/-- The width of the left box. -/
def left : Int := max 38 (s.width * 45 / 100)

def drawLink : Canvas Cell Unit := do
  box s 0 0 (left s) top ("LINK // ".toList ++ v.coin)
  box s (left s) 0 (s.width - left s) top "SUPRYOLO // 0.2.1".toList
  put s 2 1 (v.state ++ "  UP ".toList ++ dbl.duration v.elapsed)
    (if v.state = "MINING".toList then .bright else .yellow) (left s - 4)
  put s 2 2 v.pool .cyan (left s - 4)
  put s 2 3 ("Worker ".toList ++ v.worker) .dim (left s - 4)
  put s 2 4
    ("Accepted ".toList ++ number v.accepted.toNat ++ "  Rejected ".toList ++ number v.rejected.toNat)
    .bright (left s - 4)
  put s 2 5
    ("Stale ".toList ++ number v.stale.toNat ++ "  Pending ".toList ++ number v.pending.toNat)
    .green (left s - 4)
  put s 2 6 ("Difficulty ".toList ++ v.difficulty) .cyan (left s - 4)
  put s 2 7 ("Block candidates ".toList ++ number v.blockCandidates.toNat) .green (left s - 4)

def logo : List String :=
  ["  ____  _   _ ____  ____  ",
    " / ___|| | | |  _ \\|  _ \\ ",
    " \\___ \\| | | | |_) | |_) |",
    "  ___) | |_| |  __/|  _ < ",
    " |____/ \\___/|_|   |_| \\_\\",
    "       Y O L O  //  01"]

def drawLogo : Canvas Cell Unit := do
  let lx := left s + max 2 ((s.width - left s - 29).tdiv 2)
  each logo.zipIdx fun (line, i) =>
    put s lx (1 + i) line.toList (if i = 5 then .cyan else .bright) (s.width - left s - 3)
  let rain : Text := (List.range (s.width - left s - 4).toNat).map fun i =>
    if ((i : Int) * 17 + dbl.rain tick).tmod 13 < 6 then '0' else '1'
  putAll s (left s + 2) 7 rain .dim

def drawDevice (d : DeviceView F) (y : Int) : Canvas Cell Unit := do
  let c : Color := if hot v d then .red else if warm v d then .yellow else .bright
  put s 2 y d.label c 7
  put s 10 y (dbl.rate d.hashesPerSecond) .bright 13
  put s 24 y (value d.sensors.temperature "C") c 5
  put s 30 y (value d.sensors.fanPercent "%") .green 5
  put s 36 y (value d.sensors.coreMhz "") .green 6
  put s 43 y (value d.sensors.memoryMhz "") .green 6
  put s 50 y
    (match d.sensors.watts with | some watts => dbl.decimal watts 0 ++ ['W'] | none => "--".toList)
    .green 8
  put s 59 y (number d.accepted.toNat ++ '/' :: number d.rejected.toNat) .green 9
  if hot v d then
    if blinking dbl tick then put s (s.width - 8) y " ALARM ".toList .alarm 7
  else if s.width ≥ 100 then put s 70 y d.name .dim (s.width - 72)
  else if warm v d then put s (s.width - 7) y "WARM".toList .yellow 5

def drawDevices (offset : Nat) : Canvas Cell Unit := do
  let total := v.devices.foldl (fun total d => dbl.add total d.hashesPerSecond) dbl.zero
  box s 0 top s.width (devicesHeight s) ("DEVICES // ".toList ++ dbl.rate total)
  putAll s 2 (top + 1) "DEVICE  RATE          TEMP  FAN   CORE   MEM    POWER     A/R".toList .cyan
  let visible := (max 0 (devicesHeight s - 3)).toNat
  let offset := if offset ≥ v.devices.length then 0 else offset
  each ((List.range visible).takeWhile fun i => i + offset < v.devices.length) fun i =>
    match v.devices[i + offset]? with
    | some d => drawDevice s dbl v tick d (top + 2 + i)
    | none => throw "device out of range"
  if v.devices.length > visible then
    put s (s.width - 29) (top + devicesHeight s - 1)
      (" j/k scroll ".toList ++ number (offset + 1) ++ '/' :: number v.devices.length ++ [' ']) .cyan 27

def severityColor : Severity → Color
  | .error => .red
  | .warning => .yellow
  | .success => .bright
  | .info => .green

def drawEvents : Canvas Cell Unit := do
  box s 0 (logTop s) s.width (logHeight s) "EVENT STREAM".toList
  let rows := (logHeight s - 2).toNat
  let first := if v.events.length > rows then v.events.length - rows else 0
  each (List.range' first (v.events.length - first)) fun i =>
    match v.events[i]? with
    | some e =>
        put s 2 (logTop s + 1 + (i - first : Nat)) (e.time ++ ' ' :: e.message)
          (severityColor e.severity) (s.width - 4)
    | none => throw "event out of range"

def renderFull (offset : Nat) : Canvas Cell Unit := do
  drawLink s dbl v
  drawLogo s dbl tick
  drawDevices s dbl v tick offset
  drawEvents s v
  put s 1 (s.height - 1)
    "q quit | j/k devices | clocks MHz | power W | block candidates are unconfirmed".toList .dim
    (s.width - 2)

/-! ### Output -/

/-- The text so far and the colour it ends in. -/
def emitCell (y : Nat) (acc : Text × Color) (x : Nat) : Canvas Cell (Text × Color) := do
  let c ← load (y * s.width + x)
  if c.color ≠ acc.2 then pure (acc.1 ++ colors c.color ++ [c.c], c.color)
  else pure (acc.1 ++ [c.c], acc.2)

def emitRow (acc : Text × Color) (y : Nat) : Canvas Cell (Text × Color) := do
  let acc ← (List.range s.width.toNat).foldlM (emitCell s y) acc
  if (y : Int) + 1 < s.height then pure (acc.1 ++ "\r\n".toList, acc.2) else pure acc

def emit : Canvas Cell Text := do
  let acc ← (List.range s.height.toNat).foldlM (emitRow s) ("\x1b[H".toList, .alarm)
  pure (acc.1 ++ "\x1b[0m".toList)

def draw (offset : Nat) : Canvas Cell Unit :=
  if s.width < 76 ∨ s.height < 23 then renderSmall s dbl v tick else renderFull s dbl v tick offset

end

def clamp (x lo hi : Int) : Int := if x < lo then lo else if hi < x then hi else x

def renderDashboard {F : Type} (dbl : Doubles F) (v : DashboardView F) (width height : Int) (tick : F)
    (offset : Nat) : Except String Text :=
  let s : Size := ⟨clamp width 20 500, clamp height 5 200⟩
  let grid := List.replicate (s.width * s.height).toNat ({} : Cell)
  match (do draw s dbl v tick offset; emit s : Canvas Cell Text) grid with
  | .ok out _ => .ok out
  | .error e _ => .error e

/-- The lines of a device where no frame is drawn. -/
def summaryDevice {F : Type} (dbl : Doubles F) (d : DeviceView F) : Text :=
  "  ".toList ++ d.label ++ ' ' :: dbl.rate d.hashesPerSecond ++
    " temp=".toList ++ value d.sensors.temperature "C" ++
    " fan=".toList ++ value d.sensors.fanPercent "%" ++
    " core=".toList ++ value d.sensors.coreMhz "" ++
    " mem=".toList ++ value d.sensors.memoryMhz "" ++
    " power=".toList ++
      (match d.sensors.watts with | some watts => dbl.decimal watts 1 ++ ['W'] | none => "--".toList) ++
    ['\n']

/-- What is printed every ten seconds where no frame is drawn. -/
def summary {F : Type} (dbl : Doubles F) (v : DashboardView F) : Text :=
  "Total ".toList ++ dbl.rate (dbl.average v.hashes v.elapsed) ++
    " accepted=".toList ++ number v.accepted.toNat ++
    " rejected=".toList ++ number v.rejected.toNat ++
    " stale=".toList ++ number v.stale.toNat ++ '\n' :: v.devices.flatMap (summaryDevice dbl)

end Supryolo.Dashboard
