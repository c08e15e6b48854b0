import Supryolo.Hardware.Controls
import Supryolo.Hardware.Plans

namespace Supryolo.Hardware

open Loops

variable {η : Type}

/-- The entry for a position: the only value of a list, or the one at the position. -/
def entry (v : List UInt32) (i : Nat) : Option UInt32 := if v.length = 1 then v[0]? else v[i]?

def settingsAt (c : GpuControls) (i : Nat) : Settings :=
  ⟨entry c.coreMhz i, entry c.memoryMhz i, entry c.powerWatts i, entry c.fanPercent i⟩

/-- What a function of the driver answers. -/
def Answers {α : Type} (f : Option (η → Except String α)) (h : η) (a : α) : Prop :=
  ∃ get, f = some get ∧ get h = .ok a

/-- A wattage, or the driver's default for 0, in milliwatts. -/
def NvmlTarget (nv : Nvml η) (h : η) (watts target : UInt32) : Prop :=
  (watts ≠ 0 ∧ target.toNat = watts.toNat * 1000) ∨
    (watts = 0 ∧ ∃ read, nv.defaultLimit = some read ∧ read h = some target)

inductive NvmlPower (nv : Nvml η) (h : η) : Option UInt32 → List NvmlCall → Prop
  | unchanged : NvmlPower nv h none []
  | limit (watts lo hi target : UInt32) (hlimits : Answers nv.limits h (lo, hi))
      (htarget : NvmlTarget nv h watts target) (hrange : lo ≤ target ∧ target ≤ hi) :
      NvmlPower nv h (some watts) [.setPower target]

inductive NvmlClock (bound : UInt32) (lock : UInt32 → NvmlCall) (reset : NvmlCall) :
    Option UInt32 → List NvmlCall → Prop
  | unchanged : NvmlClock bound lock reset none []
  | automatic : NvmlClock bound lock reset (some 0) [reset]
  | locked (mhz : UInt32) (hmhz : 0 < mhz ∧ mhz ≤ bound) :
      NvmlClock bound lock reset (some mhz) [lock mhz]

inductive NvmlFan (nv : Nvml η) (h : η) : Option UInt32 → List NvmlCall → Prop
  | unchanged : NvmlFan nv h none []
  | automatic (count : UInt32) (hcount : Answers nv.numFans h count) (hsome : count ≠ 0) :
      NvmlFan nv h (some 0) ((List.range count.toNat).map fun f => .defaultFan f.toUInt32)
  | manual (percent count : UInt32) (hpercent : 0 < percent ∧ percent ≤ 100)
      (hcount : Answers nv.numFans h count) (hsome : count ≠ 0) :
      NvmlFan nv h (some percent) ((List.range count.toNat).map fun f => .setFan f.toUInt32 percent)

inductive DeviceCommands (m : Machine η) (d : GpuInfo) (s : Settings) : List (Command η) → Prop
  | amd (plan : AmdPlan) (hamd : d.amd = true)
      (hplan : Planned m.fs pciDevices d s.core s.memory s.power s.fan plan) :
      DeviceCommands m d s (plan.writes.map .file)
  | nvml (h : η) (power core memory fan : List NvmlCall) (hamd : d.amd = false)
      (hhandle : handleOf m.nvml d = some h) (hpower : NvmlPower m.nvml h s.power power)
      (hcore : NvmlClock 10000 .lockCore .resetCore s.core core)
      (hmemory : NvmlClock 100000 .lockMemory .resetMemory s.memory memory)
      (hfan : NvmlFan m.nvml h s.fan fan) :
      DeviceCommands m d s ((power ++ core ++ memory ++ fan).map (.call h))

def Resolved.commands (s : Settings) : Resolved η → List (Command η)
  | .amd plan => plan.writes.map .file
  | .nvml h power fanCount =>
      (s.power.elim [] (fun _ => powerCalls power) ++ s.core.elim [] coreCalls ++
        s.memory.elim [] memoryCalls ++ s.fan.elim [] (fanCalls fanCount)).map (.call h)

theorem query_eq_ok {α : Type} {operation : String} {f : Option (η → Except String α)} {h : η} {a : α} :
    query operation f h = .ok a ↔ Answers f h a := by
  unfold query Answers
  cases f with
  | none => simp [throw, throwThe, MonadExceptOf.throw]
  | some get =>
      cases hget : get h with
      | error e => simp [hget, throw, throwThe, MonadExceptOf.throw]
      | ok b => simp [hget, pure_eq_ok]

theorem nvmlTarget_iff {nv : Nvml η} {h : η} {watts target : UInt32} :
    (¬ watts > 4294967295 / 1000 ∧
      (if watts ≠ 0 then some (watts * 1000) else nv.defaultLimit.bind fun read => read h) = some target) ↔
      NvmlTarget nv h watts target := by
  have hbound : watts > 4294967295 / 1000 ↔ 4294967 < watts.toNat := Iff.rfl
  unfold NvmlTarget
  rw [hbound, Nat.not_lt]
  by_cases hwatts : watts = 0
  · subst hwatts
    simp [Option.bind_eq_some_iff]
  · rw [if_pos hwatts, Option.some_inj, ← UInt32.toNat_inj, UInt32.toNat_mul]
    have htarget := target.toNat_lt
    have hthousand : (1000 : UInt32).toNat = 1000 := rfl
    simp only [hwatts, ne_eq, not_false_eq_true, true_and, false_and, or_false, hthousand]
    omega

/-- The wattages that pass, as the calls they lead to. -/
theorem nvmlPower_iff {nv : Nvml η} {index : Int} {h : η} {setting : Option UInt32}
    {calls : List NvmlCall} :
    (∃ power, orZero setting (resolvePower nv index h) = .ok power ∧
      calls = setting.elim [] fun _ => powerCalls power) ↔ NvmlPower nv h setting calls := by
  cases setting with
  | none =>
      constructor
      · rintro ⟨power, -, rfl⟩
        exact .unchanged
      · rintro ⟨⟩
        exact ⟨0, rfl, rfl⟩
  | some watts =>
      constructor
      · rintro ⟨power, hpower, rfl⟩
        obtain ⟨⟨lo, hi⟩, hlimits, hpower⟩ := bind_eq_ok.mp hpower
        obtain ⟨hwatts, hpower⟩ := guard_eq_ok.mp hpower
        dsimp only at hpower
        split at hpower
        · cases hpower
        · rename_i target htarget
          obtain ⟨hrange, hpower⟩ := guard_eq_ok.mp hpower
          obtain rfl := pure_eq_ok.mp hpower
          rw [not_or, UInt32.not_lt, UInt32.not_lt] at hrange
          exact .limit watts lo hi target (query_eq_ok.mp hlimits) (nvmlTarget_iff.mp ⟨hwatts, htarget⟩) hrange
      · intro hcalls
        cases hcalls with
        | limit _ lo hi target hlimits htarget hrange =>
            obtain ⟨hwatts, htarget⟩ := nvmlTarget_iff.mpr htarget
            refine ⟨target, ?_, rfl⟩
            rw [orZero, resolvePower, query_eq_ok.mpr hlimits, ok_bind]
            refine guard_eq_ok.mpr ⟨hwatts, ?_⟩
            simp only [htarget]
            refine guard_eq_ok.mpr ⟨?_, rfl⟩
            rwa [not_or, UInt32.not_lt, UInt32.not_lt]

theorem nvmlFan_iff {nv : Nvml η} {h : η} {setting : Option UInt32} {calls : List NvmlCall} :
    (∃ count, orZero setting (countFans nv h) = .ok count ∧ calls = setting.elim [] (fanCalls count)) ↔
      NvmlFan nv h setting calls := by
  cases setting with
  | none =>
      constructor
      · rintro ⟨count, -, rfl⟩
        exact .unchanged
      · rintro ⟨⟩
        exact ⟨0, rfl, rfl⟩
  | some percent =>
      have hok (count : UInt32) : countFans nv h percent = .ok count ↔
          percent ≤ 100 ∧ Answers nv.numFans h count ∧ count ≠ 0 := by
        unfold countFans
        constructor
        · intro hcount
          obtain ⟨hpercent, hcount⟩ := guard_eq_ok.mp hcount
          obtain ⟨found, hfound, hcount⟩ := bind_eq_ok.mp hcount
          obtain ⟨hsome, hcount⟩ := guard_eq_ok.mp hcount
          obtain rfl := pure_eq_ok.mp hcount
          exact ⟨UInt32.not_lt.mp hpercent, query_eq_ok.mp hfound, hsome⟩
        · rintro ⟨hpercent, hfound, hsome⟩
          refine guard_eq_ok.mpr ⟨UInt32.not_lt.mpr hpercent, ?_⟩
          rw [query_eq_ok.mpr hfound, ok_bind]
          exact guard_eq_ok.mpr ⟨hsome, rfl⟩
      simp only [orZero, hok, Option.elim_some]
      constructor
      · rintro ⟨count, ⟨hpercent, hcount, hsome⟩, rfl⟩
        by_cases hzero : percent = 0
        · subst hzero
          exact .automatic count hcount hsome
        · simp only [fanCalls, hzero, ne_eq, not_false_eq_true, if_true]
          exact .manual percent count ⟨UInt32.pos_iff_ne_zero.mpr hzero, hpercent⟩ hcount hsome
      · intro hcalls
        cases hcalls with
        | automatic count hcount hsome => exact ⟨count, ⟨by decide, hcount, hsome⟩, rfl⟩
        | manual _ count hpercent hcount hsome =>
            refine ⟨count, ⟨hpercent.2, hcount, hsome⟩, ?_⟩
            simp only [fanCalls, UInt32.pos_iff_ne_zero.mp hpercent.1, ne_eq, not_false_eq_true, if_true]

theorem nvmlClock_iff {bound : UInt32} {lock : UInt32 → NvmlCall} {reset : NvmlCall}
    {setting : Option UInt32} {calls : List NvmlCall} :
    (¬ setting.any (· > bound) = true ∧
      calls = setting.elim [] fun mhz => [if mhz ≠ 0 then lock mhz else reset]) ↔
      NvmlClock bound lock reset setting calls := by
  cases setting with
  | none =>
      constructor
      · rintro ⟨-, rfl⟩
        exact .unchanged
      · rintro ⟨⟩
        exact ⟨Bool.false_ne_true, rfl⟩
  | some mhz =>
      simp only [Option.any_some, decide_eq_true_eq, gt_iff_lt, UInt32.not_lt, Option.elim_some]
      constructor
      · rintro ⟨hbound, rfl⟩
        by_cases hzero : mhz = 0
        · subst hzero
          exact .automatic
        · rw [if_pos hzero]
          exact .locked mhz ⟨UInt32.pos_iff_ne_zero.mpr hzero, hbound⟩
      · intro hcalls
        cases hcalls with
        | automatic => exact ⟨UInt32.zero_le, rfl⟩
        | locked _ hmhz => exact ⟨hmhz.2, by rw [if_pos (UInt32.pos_iff_ne_zero.mp hmhz.1)]⟩

/-- The checks pass for exactly the devices that there are commands for, and
work out these commands. -/
theorem validate_iff {m : Machine η} {p : Position η} (hp : p.handle = handleOf m.nvml p.device)
    {commands : List (Command η)} :
    (∃ r, validate m p = .ok r ∧ commands = r.commands p.settings) ↔
      DeviceCommands m p.device p.settings commands := by
  unfold validate
  dsimp only
  by_cases hamd : p.device.amd = true
  · rw [if_pos hamd]
    constructor
    · rintro ⟨r, hr, rfl⟩
      obtain ⟨plan, hplan, hr⟩ := bind_eq_ok.mp hr
      obtain rfl := pure_eq_ok.mp hr
      exact .amd plan hamd (amdControlPlan_eq_ok.mp hplan)
    · intro hcommands
      cases hcommands with
      | amd plan _ hplan =>
          refine ⟨.amd plan, ?_, rfl⟩
          rw [amdControlPlan_eq_ok.mpr hplan]
          rfl
      | nvml _ _ _ _ _ hnot => exact absurd hamd (by rw [hnot]; exact Bool.false_ne_true)
  · rw [if_neg hamd, hp]
    constructor
    · rintro ⟨r, hr, rfl⟩
      split at hr
      · cases hr
      · rename_i h hhandle
        obtain ⟨hcore, hr⟩ := guard_eq_ok.mp hr
        obtain ⟨hmemory, hr⟩ := guard_eq_ok.mp hr
        obtain ⟨power, hpower, hr⟩ := bind_eq_ok.mp hr
        obtain ⟨count, hcount, hr⟩ := bind_eq_ok.mp hr
        obtain rfl := pure_eq_ok.mp hr
        exact .nvml h _ _ _ _ (Bool.of_not_eq_true hamd) hhandle (nvmlPower_iff.mp ⟨power, hpower, rfl⟩)
          (nvmlClock_iff.mp ⟨hcore, rfl⟩) (nvmlClock_iff.mp ⟨hmemory, rfl⟩)
          (nvmlFan_iff.mp ⟨count, hcount, rfl⟩)
    · intro hcommands
      cases hcommands with
      | amd _ hamd' _ => exact absurd hamd' hamd
      | nvml h power core memory fan _ hhandle hpower hcore hmemory hfan =>
          obtain ⟨milliwatts, hpower, rfl⟩ := nvmlPower_iff.mpr hpower
          obtain ⟨hcoreBound, rfl⟩ := nvmlClock_iff.mpr hcore
          obtain ⟨hmemoryBound, rfl⟩ := nvmlClock_iff.mpr hmemory
          obtain ⟨count, hcount, rfl⟩ := nvmlFan_iff.mpr hfan
          refine ⟨.nvml h milliwatts count, ?_, rfl⟩
          simp only [hhandle]
          refine guard_eq_ok.mpr ⟨hcoreBound, guard_eq_ok.mpr ⟨hmemoryBound, ?_⟩⟩
          rw [hpower, ok_bind, hcount]
          rfl

end Supryolo.Hardware
