import Supryolo.Hardware.Sysfs
import Supryolo.Lib.Journal

/-!
Model of the controls in `amd.cpp`: a plan is a list of writes to sysfs files,
made without writing anything; applying it makes the writes, and puts the old
fan policy back where a write fails after the policy was changed.
-/

namespace Supryolo.Hardware

open Journal

structure AmdWrite where
  path : Path
  value : Text
  deriving DecidableEq

@[ext] structure AmdPlan where
  writes : List AmdWrite := []
  events : List String := []
  fanRestore : Option AmdWrite := none
  deriving DecidableEq

def child (directory : Path) (name : String) : Path := directory ++ [name.toList]

def AmdPlan.add (fs : Sysfs) (p : AmdPlan) (file : Path) (value : Text) : Except String AmdPlan := do
  let present ← fs.present file
  if present = false then throw ("AMD driver does not expose " ++ fileName file)
  pure { p with writes := p.writes ++ [⟨file, value⟩] }

def AmdPlan.note (p : AmdPlan) (event : String) : AmdPlan := { p with events := p.events ++ [event] }

def planPower (fs : Sysfs) (hwmon : Option Path) (power : UInt32) (p : AmdPlan) :
    Except String AmdPlan :=
  match hwmon with
  | none => throw "AMD hwmon unavailable for power control"
  | some hw =>
      let requested :=
        if power ≠ 0 then some (power.toUInt64 * 1000000)
        else number fs (child hw "power1_cap_default")
      match number fs (child hw "power1_cap_min"), number fs (child hw "power1_cap_max"), requested with
      | some lo, some hi, some requested => do
          if requested < lo ∨ requested > hi then throw "AMD power limit outside driver range"
          let p ← p.add fs (child hw "power1_cap") (decimal requested.toNat)
          pure (p.note ("power limit " ++ toString (requested / 1000000) ++ " W applied"))
      | _, _, _ => throw "AMD power limits/default unavailable"

/-- The index in a line of a DPM table, if the line is about the wanted MHz. -/
def levelIndex (mhz : UInt32) (line : Text) : Option Text :=
  match dpmLevel line with
  | some (index, value) => if value = mhz then some (decimal index.toNat) else none
  | none => none

def level (fs : Sysfs) (file : Path) (mhz : UInt32) : Except String Text :=
  match (fileLines ((fs.content file).getD [])).findSome? (levelIndex mhz) with
  | some index => pure index
  | none => throw ("AMD clock must match a driver-advertised MHz level in " ++ fileName file)

def levelOf (fs : Sysfs) (file : Path) : Option UInt32 → Except String (Option Text)
  | none => pure none
  | some mhz => do
      let index ← level fs file mhz
      pure (some index)

def planLevel (fs : Sysfs) (file : Path) (domain : String) (clock : Option UInt32)
    (index : Option Text) (p : AmdPlan) : Except String AmdPlan :=
  match clock, index with
  | some mhz, some index => do
      let p ← p.add fs file index
      pure (p.note (domain ++ " clock DPM level " ++ toString mhz ++ " MHz applied"))
  | _, _ => pure p

def planClocks (fs : Sysfs) (device : Path) (core memory : Option UInt32) (p : AmdPlan) :
    Except String AmdPlan :=
  if core = none ∧ memory = none then pure p
  else do
    let reset := core = some 0 ∨ memory = some 0
    if reset ∧ (core.any (· ≠ 0) = true ∨ memory.any (· ≠ 0) = true) then
      throw "AMD clock reset applies to both domains; cannot combine reset and locked clocks"
    if reset then
      let p ← p.add fs (child device "power_dpm_force_performance_level") "auto".toList
      pure (p.note "core and memory clock policy automatic applied")
    else
      let sc ← levelOf fs (child device "pp_dpm_sclk") core
      let mc ← levelOf fs (child device "pp_dpm_mclk") memory
      let p ← p.add fs (child device "power_dpm_force_performance_level") "manual".toList
      let p ← planLevel fs (child device "pp_dpm_sclk") "core" core sc p
      planLevel fs (child device "pp_dpm_mclk") "memory" memory mc p

def planFan (fs : Sysfs) (hwmon : Option Path) (fan : UInt32) (p : AmdPlan) : Except String AmdPlan :=
  match if fan > 100 then none else hwmon with
  | none => throw "AMD fan control unavailable or invalid percentage"
  | some hw =>
      if fan = 0 then do
        let p ← p.add fs (child hw "pwm1_enable") "2".toList
        pure (p.note "automatic fan control applied")
      else
        match (number fs (child hw "pwm1_max")).filter (· ≠ 0) with
        | none => throw "AMD fan PWM range unavailable"
        | some maximum =>
            match (number fs (child hw "pwm1_enable")).filter (· ≤ 2) with
            | none => throw "AMD current fan policy unavailable"
            | some policy => do
                let p := { p with fanRestore := some ⟨child hw "pwm1_enable", decimal policy.toNat⟩ }
                let p ← p.add fs (child hw "pwm1_enable") "1".toList
                let p ← p.add fs (child hw "pwm1")
                  (decimal ((maximum * fan.toUInt64 + 50) / 100).toNat)
                pure (p.note ("fan " ++ toString fan ++ "% applied"))

/-- The root that is used outside of tests. -/
def pciDevices : Path := ["sys".toList, "bus".toList, "pci".toList, "devices".toList]

def whereRequested (setting : Option UInt32) (plan : UInt32 → AmdPlan → Except String AmdPlan)
    (p : AmdPlan) : Except String AmdPlan :=
  match setting with
  | some value => plan value p
  | none => pure p

def amdControlPlan (fs : Sysfs) (root : Path) (d : GpuInfo) (core memory power fan : Option UInt32) :
    Except String AmdPlan := do
  if isPciBus d.pciBus = false then throw "AMD PCI mapping unavailable"
  let device := root ++ [d.pciBus]
  if word fs (child device "vendor") ≠ "0x1002".toList then throw "AMD PCI vendor mismatch"
  let hw ← findHwmon fs (child device "hwmon") (fs.entries (child device "hwmon"))
  let p ← whereRequested power (planPower fs hw) {}
  let p ← planClocks fs device core memory p
  whereRequested fan (planFan fs hw) p

section

variable {ω : Type} (outcome : Outcomes) (file : AmdWrite → ω)

def amdWrite (w : AmdWrite) : Program ω Unit :=
  attempt outcome (file w) ("AMD write failed for " ++ fileName w.path)

/-- The writes in order. What is left is whether the fan policy has changed,
also where a write fails. -/
def amdWrites (restore : Option AmdWrite) : List AmdWrite → Bool → Program ω (Option String × Bool)
  | [], changed => pure (none, changed)
  | w :: rest, changed => do
      let failed ← tryCatch (do amdWrite outcome file w; pure none) fun e => pure (some e)
      match failed with
      | some e => pure (some e, changed)
      | none =>
          amdWrites restore rest
            (changed || match restore with | some r => w.path == r.path | none => false)

def amdApply (p : AmdPlan) : Program ω Unit := do
  match ← amdWrites outcome file p.fanRestore p.writes false with
  | (none, _) => pure ()
  | (some e, changed) =>
      match p.fanRestore, changed with
      | some r, true =>
          tryCatch (amdWrite outcome file r) fun restore =>
            throw (e ++ "; previous fan policy could not be restored: " ++ restore)
      | _, _ => pure ()
      throw e

end

end Supryolo.Hardware
