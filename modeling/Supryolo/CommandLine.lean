import Supryolo.Hardware.Controls
import Supryolo.Lib.Directives

/-!
Model of `main.cpp` up to the point where it starts a task: the numbers of the
command line, its options, and the choice between mining, the benchmark and the
inspections. A `double` is its bit pattern, and `std::stod` is a parameter that
returns it with the number of characters it used.
-/

namespace Supryolo.CommandLine

open Directives

def integer (s : Text) (maximum : Nat) : Except String Nat :=
  if s.isEmpty || !s.all Char.isDigit then throw "expected nonnegative integer"
  else
    let n := Nat.ofDigitChars 10 s 0
    -- The largest `unsigned long long` that `std::stoull` returns.
    if n ≥ 2 ^ 64 then throw "stoull"
    else if n > maximum then throw "integer out of range"
    else pure n

/-- The loop takes what stands between one comma and the next. -/
def numbers (text : Text) (maximum : Nat) : Except String (List UInt32) :=
  (text.splitOn ',').mapM fun piece => do pure (← integer piece maximum).toUInt32

abbrev Stod := Text → Except String (UInt64 × Nat)

structure MineOptions extends Devices.MineOptions where
  sv2Authority : Text := []
  logFile : Text := []
  url : Text := []
  user : Text := []
  password : Text := "x".toList
  tui : Text := "auto".toList
  cpuVariant : Text := "auto".toList
  cpuThreads : Nat := 0
  apiPort : Nat := 0
  block : Nat := 0
  variant : Nat := 3
  openclVariant : Int := -1
  batch : UInt32 := 0x4000000
  cpuBatch : UInt32 := 16384
  seconds : UInt64 := 0
  warnTemperature : Nat := 75
  alarmTemperature : Nat := 85
  controls : Hardware.GpuControls := {}

structure Parsed where
  o : MineOptions := {}
  bench : Bool := false
  secondsSet : Bool := false
  list : Bool := false
  demo : Bool := false
  help : Bool := false

inductive Switch
  | benchmark
  | noCpu
  | noGpu
  | tui
  | noTui
  | listDevices
  | tuiDemo
  | help
  deriving DecidableEq

inductive Setting
  | gpuDevice
  | gpuBackend
  | cpuVariant
  | cpuThreads
  | block
  | openclVariant
  | variant
  | batch
  | cpuBatch
  | seconds
  | sv2Authority
  | url
  | user
  | logFile
  | apiPort
  | password
  | gpuCoreClock
  | gpuMemClock
  | powerlimit
  | gpuFanSpeed
  | gpuTempWarn
  | gpuTempAlarm
  deriving DecidableEq

def roles : List (String × Role Switch Setting) :=
  [("--benchmark", .switch .benchmark), ("--gpu-device", .setting .gpuDevice),
    ("-d", .setting .gpuDevice), ("--gpu-backend", .setting .gpuBackend),
    ("--no-cpu", .switch .noCpu), ("--no-gpu", .switch .noGpu), ("--cpu", .switch .noGpu),
    ("--cpu-variant", .setting .cpuVariant), ("--cpu-threads", .setting .cpuThreads),
    ("--block", .setting .block), ("--opencl-variant", .setting .openclVariant),
    ("--variant", .setting .variant), ("--batch", .setting .batch),
    ("--cpu-batch", .setting .cpuBatch), ("--seconds", .setting .seconds),
    ("--sv2-authority", .setting .sv2Authority), ("--url", .setting .url),
    ("--user", .setting .user), ("--log-file", .setting .logFile),
    ("--api-port", .setting .apiPort), ("--password", .setting .password),
    ("--gpu-core-clock", .setting .gpuCoreClock), ("--gpu-mem-clock", .setting .gpuMemClock),
    ("--powerlimit", .setting .powerlimit), ("--gpu-fan-speed", .setting .gpuFanSpeed),
    ("--gpu-temp-warn", .setting .gpuTempWarn), ("--gpu-temp-alarm", .setting .gpuTempAlarm),
    ("--tui", .switch .tui), ("--no-tui", .switch .noTui),
    ("--list-devices", .switch .listDevices), ("--tui-demo", .switch .tuiDemo),
    ("--version", .stop), ("--help", .switch .help), ("-h", .switch .help)]

def role (a : Text) : Role Switch Setting :=
  match roles.find? fun entry => decide (entry.1.toList = a) with
  | some entry => entry.2
  | none => .unknown

def Parsed.flip (p : Parsed) : Switch → Parsed
  | .benchmark => { p with bench := true }
  | .noCpu => { p with o := { p.o with noCpu := true } }
  | .noGpu => { p with o := { p.o with noGpu := true } }
  | .tui => { p with o := { p.o with tui := "on".toList } }
  | .noTui => { p with o := { p.o with tui := "off".toList } }
  | .listDevices => { p with list := true }
  | .tuiDemo => { p with demo := true }
  | .help => { p with help := true }

def isFinite (bits : UInt64) : Bool := (bits >>> 52) &&& 0x7ff != 0x7ff

/-- `<= 0`, of a value that is a number. -/
def isNonpositive (bits : UInt64) : Bool := bits ≥ 0x8000000000000000 || bits == 0

def MineOptions.set (stod : Stod) (o : MineOptions) : Setting → Text → Except String MineOptions
  | .gpuDevice, value => do
      let devices := (← numbers value 255).map fun n => (n.toNat : Int)
      if ¬ devices.Nodup then throw "duplicate GPU device"
      pure { o with devices := devices, devicesExplicit := true }
  | .gpuBackend, value => pure { o with gpuMode := value }
  | .cpuVariant, value => pure { o with cpuVariant := value }
  | .cpuThreads, value => do pure { o with cpuThreads := ← integer value 128 }
  | .block, value => do pure { o with block := ← integer value 1024 }
  | .openclVariant, value => do
      let n ← integer value 3
      pure { o with openclVariant := n }
  | .variant, value => do pure { o with variant := ← integer value 6 }
  | .batch, value => do
      let batch := (← integer value (2 ^ 28)).toUInt32
      if batch = 0 then throw "batch must be positive"
      pure { o with batch := batch }
  | .cpuBatch, value => do
      let batch := (← integer value (2 ^ 20)).toUInt32
      if batch = 0 then throw "CPU batch must be positive"
      pure { o with cpuBatch := batch }
  | .seconds, value => do
      let (seconds, used) ← stod value
      if used ≠ value.length ∨ isFinite seconds = false ∨ isNonpositive seconds = true then
        throw "seconds must be positive and finite"
      pure { o with seconds := seconds }
  | .sv2Authority, value => pure { o with sv2Authority := value }
  | .url, value => pure { o with url := value }
  | .user, value => pure { o with user := value }
  | .logFile, value => pure { o with logFile := value }
  | .apiPort, value => do pure { o with apiPort := ← integer value 65535 }
  | .password, value => pure { o with password := value }
  | .gpuCoreClock, value => do
      let values ← numbers value 10000
      pure { o with controls := { o.controls with coreMhz := values } }
  | .gpuMemClock, value => do
      let values ← numbers value 100000
      pure { o with controls := { o.controls with memoryMhz := values } }
  | .powerlimit, value => do
      let values ← numbers value 2000
      pure { o with controls := { o.controls with powerWatts := values } }
  | .gpuFanSpeed, value => do
      let values ← numbers value 100
      pure { o with controls := { o.controls with fanPercent := values } }
  | .gpuTempWarn, value => do pure { o with warnTemperature := ← integer value 120 }
  | .gpuTempAlarm, value => do pure { o with alarmTemperature := ← integer value 120 }

def Parsed.set (stod : Stod) (p : Parsed) (setting : Setting) (value : Text) :
    Except String Parsed := do
  let o ← p.o.set stod setting value
  pure { p with o := o, secondsSet := p.secondsSet || setting == .seconds }

def grammar (stod : Stod) : Grammar Text Switch Setting Parsed String where
  role := role
  flip := Parsed.flip
  set := Parsed.set stod
  missing a := "missing value for " ++ String.ofList a
  unknown a := "unknown argument: " ++ String.ofList a

inductive Task
  | version
  | usage (code : Nat)
  | demo (seconds : Option UInt64)
  | list (o : MineOptions)
  | mine (o : MineOptions)
  | bench (o : MineOptions) (seconds : Option UInt64)

/-- `main` up to the task; the arguments are those after the program's name. -/
def dispatch (stod : Stod) (args : List Text) : Except String Task := do
  match ← scan (grammar stod) {} args with
  | none => pure .version
  | some p =>
      let o := p.o
      let seconds := if p.secondsSet then some o.seconds else none
      if p.help = true ∨ args = [] then pure (.usage 0)
      else if o.cpuVariant ≠ "auto".toList ∧ o.cpuVariant ≠ "scalar".toList ∧
          o.cpuVariant ≠ "avx2".toList then
        throw "CPU variant must be auto, scalar or avx2"
      else if p.bench.toNat + p.demo.toNat + p.list.toNat > 1 then
        throw "choose one inspection/benchmark mode"
      else if p.list = true ∧ o.controls.requested = true then
        throw "--list-devices cannot apply hardware settings"
      else if o.warnTemperature ≥ o.alarmTemperature ∨ o.warnTemperature = 0 then
        throw "temperature thresholds require 0 < warn < alarm"
      else if (p.bench = true ∨ p.demo = true ∨ p.list = true) ∧ o.url ≠ [] then
        throw "inspection/benchmark mode cannot be combined with --url"
      else if p.demo = true then
        if o.controls.requested = true then throw "demo cannot apply hardware settings"
        else pure (.demo seconds)
      else if p.list = true then pure (.list o)
      else if o.noCpu = true ∧ o.noGpu = true then
        throw "No mining devices enabled (--no-cpu and --no-gpu)"
      else if o.noGpu = true ∧ o.devicesExplicit = true then
        throw "--gpu-device conflicts with --no-gpu"
      else if o.url ≠ [] then pure (.mine o)
      else if p.bench = false then pure (.usage 1)
      else pure (.bench o seconds)

theorem integer_eq_ok {s : Text} {maximum n : Nat} (hmax : maximum < 2 ^ 64) :
    integer s maximum = .ok n ↔
      s ≠ [] ∧ (∀ c ∈ s, c.isDigit = true) ∧ Nat.ofDigitChars 10 s 0 = n ∧ n ≤ maximum := by
  unfold integer
  rw [Loops.guard_eq_ok]
  simp only [Bool.or_eq_true, List.isEmpty_iff, Bool.not_eq_true', not_or, Bool.not_eq_false,
    List.all_eq_true, and_assoc]
  refine and_congr_right fun _ => and_congr_right fun _ => ?_
  rw [Loops.guard_eq_ok, Loops.guard_eq_ok, Loops.pure_eq_ok]
  constructor
  · rintro ⟨-, hle, rfl⟩
    exact ⟨rfl, Nat.le_of_not_lt hle⟩
  · rintro ⟨rfl, hle⟩
    exact ⟨by omega, Nat.not_lt.mpr hle, rfl⟩

theorem integer_decimal {n maximum : Nat} (hmax : maximum < 2 ^ 64) (h : n ≤ maximum) :
    integer (Hardware.decimal n) maximum = .ok n :=
  (integer_eq_ok hmax).mpr ⟨Nat.toDigits_ne_nil,
    fun _ hc => Nat.isDigit_of_mem_toDigits (by decide) (by decide) hc,
    Nat.ofDigitChars_ten_toDigits, h⟩

theorem numbers_ok {text : Text} {maximum : Nat} {values : List UInt32} (hmax : maximum < 2 ^ 32)
    (h : numbers text maximum = .ok values) : values ≠ [] ∧ ∀ v ∈ values, v.toNat ≤ maximum := by
  constructor
  · rintro rfl
    exact List.splitOn_ne_nil ',' text (List.forall₂_nil_right_iff.mp (Loops.mapM_eq_ok.mp h))
  · intro v hv
    obtain ⟨piece, -, hpiece⟩ := Loops.mem_of_mapM h hv
    obtain ⟨n, hn, hv⟩ := Loops.bind_eq_ok.mp hpiece
    obtain rfl := Loops.pure_eq_ok.mp hv
    obtain ⟨-, -, -, hle⟩ := (integer_eq_ok (hmax.trans (by decide))).mp hn
    rw [Nat.toUInt32, UInt32.toNat_ofNat']
    exact (Nat.mod_le _ _).trans hle

/-- Numbers as the command line takes them. -/
def commaSeparated (values : List UInt32) : Text :=
  [','].intercalate (values.map fun v => Hardware.decimal v.toNat)

theorem numbers_commaSeparated {values : List UInt32} {maximum : Nat} (hmax : maximum < 2 ^ 32)
    (hne : values ≠ []) (h : ∀ v ∈ values, v.toNat ≤ maximum) :
    numbers (commaSeparated values) maximum = .ok values := by
  have hdigit {c : Char} {n : Nat} (hc : c ∈ Hardware.decimal n) : c.isDigit = true :=
    Nat.isDigit_of_mem_toDigits (by decide) (by decide) hc
  unfold numbers commaSeparated
  rw [List.splitOn_intercalate]
  · rw [Loops.mapM_eq_ok, List.forall₂_map_left_iff]
    refine List.forall₂_same.mpr fun v hv => ?_
    rw [integer_decimal (hmax.trans (by decide)) (h v hv)]
    exact congrArg Except.ok (UInt32.ofNat_toNat)
  · intro piece hpiece hcomma
    obtain ⟨v, -, rfl⟩ := List.mem_map.mp hpiece
    exact absurd (hdigit hcomma) (by decide)
  · simpa using hne

end Supryolo.CommandLine
