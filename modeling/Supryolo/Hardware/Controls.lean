import Supryolo.Hardware.Amd

/-!
Model of `GpuManagement` in `nvml.cpp` as far as it applies controls. NVML is
what it answers: functions it does not have are missing, and a function that
fails gives its error text. Everything is checked first; then the devices are
written one after the other, each attempt entering a journal.
-/

namespace Supryolo.Hardware

open Journal

structure GpuControls where
  coreMhz : List UInt32 := []
  memoryMhz : List UInt32 := []
  powerWatts : List UInt32 := []
  fanPercent : List UInt32 := []

def GpuControls.requested (c : GpuControls) : Bool :=
  !c.coreMhz.isEmpty || !c.memoryMhz.isEmpty || !c.powerWatts.isEmpty || !c.fanPercent.isEmpty

def broadcastValues (v : List UInt32) (count : Nat) : Except String (List UInt32) :=
  match v with
  | [] => pure []
  | [value] => pure (List.replicate count value)
  | _ =>
      if v.length ≠ count then
        throw "GPU control list must contain one value or one per selected GPU"
      else pure v

/-- The calls that change a device. -/
inductive NvmlCall
  | setPower (milliwatts : UInt32)
  | lockCore (mhz : UInt32)
  | resetCore
  | lockMemory (mhz : UInt32)
  | resetMemory
  | setFan (fan percent : UInt32)
  | defaultFan (fan : UInt32)
  deriving DecidableEq

def NvmlCall.operation : NvmlCall → String
  | .setPower _ => "nvmlDeviceSetPowerManagementLimit"
  | .lockCore _ => "nvmlDeviceSetGpuLockedClocks"
  | .resetCore => "nvmlDeviceResetGpuLockedClocks"
  | .lockMemory _ => "nvmlDeviceSetMemoryLockedClocks"
  | .resetMemory => "nvmlDeviceResetMemoryLockedClocks"
  | .setFan _ _ => "nvmlDeviceSetFanSpeed_v2"
  | .defaultFan _ => "nvmlDeviceSetDefaultFanSpeed_v2"

/-- `η` are the device handles. -/
structure Nvml (η : Type) where
  loaded : Bool
  init : Option Int
  lookup : Option (Text → Option η)
  limits : Option (η → Except String (UInt32 × UInt32))
  defaultLimit : Option (η → Option UInt32)
  numFans : Option (η → Except String UInt32)
  provides : String → Bool

structure Machine (η : Type) where
  fs : Sysfs
  nvml : Nvml η

/-- What may be written: a file, or a call about a device. -/
inductive Command (η : Type)
  | file (write : AmdWrite)
  | call (handle : η) (call : NvmlCall)

variable {η : Type}

/-- The handle the constructor gets for a device, by its PCI address. -/
def handleOf (nv : Nvml η) (d : GpuInfo) : Option η :=
  if nv.loaded = true ∧ nv.init = some 0 ∧ d.amd = false then
    nv.lookup.bind fun get => get (d.pciBus.takeWhile (· ≠ '\x00'))
  else none

def missingOperation (operation : String) : String :=
  operation ++ ": driver does not provide this operation"

/-- A call that reads. -/
def query {α : Type} (operation : String) (f : Option (η → Except String α)) (h : η) : Except String α :=
  match f with
  | none => throw (missingOperation operation)
  | some f =>
      match f h with
      | .ok a => pure a
      | .error e => throw (operation ++ ": " ++ e)

structure Settings where
  core : Option UInt32
  memory : Option UInt32
  power : Option UInt32
  fan : Option UInt32
  deriving DecidableEq

structure Position (η : Type) where
  device : GpuInfo
  handle : Option η
  settings : Settings
  deriving DecidableEq

/-- What the checks work out for a device. -/
inductive Resolved (η : Type)
  | amd (plan : AmdPlan)
  | nvml (handle : η) (power fanCount : UInt32)
  deriving DecidableEq

def resolvePower (nv : Nvml η) (index : Int) (h : η) (watts : UInt32) : Except String UInt32 := do
  let (lo, hi) ← query "nvmlDeviceGetPowerManagementLimitConstraints" nv.limits h
  if watts > 4294967295 / 1000 then throw "GPU power limit overflow"
  match if watts ≠ 0 then some (watts * 1000) else nv.defaultLimit.bind fun read => read h with
  | none => throw "Default GPU power limit unavailable"
  | some mw =>
      if mw < lo ∨ mw > hi then
        throw ("GPU " ++ toString index ++ " power limit outside driver range " ++
          toString (lo / 1000) ++ ".." ++ toString (hi / 1000) ++ " W")
      pure mw

def countFans (nv : Nvml η) (h : η) (percent : UInt32) : Except String UInt32 := do
  if percent > 100 then throw "GPU fan speed must be 0 (automatic) or 1..100 percent"
  let count ← query "nvmlDeviceGetNumFans" nv.numFans h
  if count = 0 then throw "GPU fan control unsupported on this device"
  pure count

/-- A result that is 0 without a request. -/
def orZero (setting : Option UInt32) (resolve : UInt32 → Except String UInt32) : Except String UInt32 :=
  match setting with
  | some value => resolve value
  | none => pure 0

def validate (m : Machine η) (p : Position η) : Except String (Resolved η) :=
  let s := p.settings
  if p.device.amd = true then do
    let plan ← amdControlPlan m.fs pciDevices p.device s.core s.memory s.power s.fan
    pure (.amd plan)
  else
    match p.handle with
    | none =>
        throw ("Cannot configure GPU " ++ toString p.device.index ++ ": NVML device unavailable")
    | some h => do
        if s.core.any (· > 10000) = true then throw "GPU core clock out of range (MHz)"
        if s.memory.any (· > 100000) = true then throw "GPU memory clock out of range (MHz)"
        let power ← orZero s.power (resolvePower m.nvml p.device.index h)
        let fanCount ← orZero s.fan (countFans m.nvml h)
        pure (.nvml h power fanCount)

def powerCalls (milliwatts : UInt32) : List NvmlCall := [.setPower milliwatts]

def coreCalls (mhz : UInt32) : List NvmlCall := [if mhz ≠ 0 then .lockCore mhz else .resetCore]

def memoryCalls (mhz : UInt32) : List NvmlCall := [if mhz ≠ 0 then .lockMemory mhz else .resetMemory]

def fanCalls (count percent : UInt32) : List NvmlCall :=
  (List.range count.toNat).map fun f =>
    if percent ≠ 0 then .setFan f.toUInt32 percent else .defaultFan f.toUInt32

section

variable (nv : Nvml η) (outcome : Outcomes)

def call (h : η) (c : NvmlCall) : Program (Command η) Unit :=
  if nv.provides c.operation = false then throw (missingOperation c.operation)
  else attempt outcome (.call h c) c.operation

/-- The calls for one setting and its event, where it is requested. -/
def applySetting (h : η) (setting : Option UInt32) (calls : UInt32 → List NvmlCall)
    (event : UInt32 → String) (events : List String) : Program (Command η) (List String) :=
  match setting with
  | none => pure events
  | some value => do
      (calls value).foldlM (fun _ c => call nv outcome h c) ()
      pure (events ++ [event value])

def speed (unit : String) (value : UInt32) : String :=
  (if value ≠ 0 then toString value ++ unit else "automatic") ++ " applied"

def controlFailed (d : GpuInfo) (e : String) : String :=
  "GPU" ++ toString d.index ++ " control failed: " ++ e ++
    ". Earlier successfully applied settings remain active; check " ++
    "device settings. Root permission may be required."

def applyDevice (p : Position η) (r : Resolved η) (events : List String) :
    Program (Command η) (List String) :=
  let label := "GPU" ++ toString p.device.index
  tryCatch
    (match r with
    | .amd plan => do
        amdApply outcome .file plan
        pure (events ++ plan.events.map fun event => label ++ " " ++ event)
    | .nvml h power fanCount => do
        let s := p.settings
        let events ← applySetting nv outcome h s.power (fun _ => powerCalls power)
          (fun _ => label ++ " power limit " ++ toString (power / 1000) ++ " W applied") events
        let events ← applySetting nv outcome h s.core coreCalls
          (fun mhz => label ++ " core clock " ++ speed " MHz" mhz) events
        let events ← applySetting nv outcome h s.memory memoryCalls
          (fun mhz => label ++ " memory clock " ++ speed " MHz" mhz) events
        applySetting nv outcome h s.fan (fanCalls fanCount)
          (fun percent => label ++ " fan " ++ speed "%" percent) events)
    fun e => throw (controlFailed p.device e)

end

/-- The devices with their handles and their entries of the four lists. -/
def positions (nv : Nvml η) (devices : List GpuInfo) (c : GpuControls) :
    Except String (List (Position η)) := do
  let core ← broadcastValues c.coreMhz devices.length
  let mem ← broadcastValues c.memoryMhz devices.length
  let power ← broadcastValues c.powerWatts devices.length
  let fan ← broadcastValues c.fanPercent devices.length
  pure (devices.mapIdx fun i d => ⟨d, handleOf nv d, ⟨core[i]?, mem[i]?, power[i]?, fan[i]?⟩⟩)

def checkedPositions (m : Machine η) (devices : List GpuInfo) (c : GpuControls) :
    Except String (List (Position η × Resolved η)) := do
  if devices = [] then throw "GPU controls supplied with no selected GPU"
  let ps ← positions m.nvml devices c
  ps.mapM fun p => do
    let r ← validate m p
    pure (p, r)

def apply (m : Machine η) (outcome : Outcomes) (devices : List GpuInfo) (c : GpuControls) :
    Program (Command η) (List String) :=
  if c.requested = false then pure []
  else do
    let checked ← ofExcept (checkedPositions m devices c)
    checked.foldlM (fun events (p, r) => applyDevice m.nvml outcome p r events) []

end Supryolo.Hardware
