import Supryolo.Hardware.Commands
import Supryolo.Hardware.FanPolicy

namespace Supryolo.Hardware

open Journal Effects Loops

variable {η : Type}

section

variable {fs : Sysfs} {hwmon : Option Path} {device : Path} {p : AmdPlan} {w : AmdWrite}

theorem child_inj {a b : Path} {name name' : String} :
    child a name = child b name' ↔ a = b ∧ name = name' := by
  constructor
  · intro h
    obtain ⟨hpath, hname⟩ := List.append_inj' h rfl
    exact ⟨hpath, String.toList_inj.mp (List.singleton_inj.mp hname)⟩
  · rintro ⟨rfl, rfl⟩
    rfl

theorem PowerPlan.write {power : Option UInt32} (h : PowerPlan fs hwmon power p) (hw : w ∈ p.writes) :
    ∃ hw lo hi target, hwmon = some hw ∧ number fs (child hw "power1_cap_min") = some lo ∧
      number fs (child hw "power1_cap_max") = some hi ∧ lo ≤ target ∧ target ≤ hi ∧
      w = ⟨child hw "power1_cap", decimal target.toNat⟩ := by
  cases h with
  | unchanged => cases hw
  | cap watts hw' lo hi target hhw hlo hhi htarget hrange hfile =>
      exact ⟨hw', lo, hi, target, hhw, hlo, hhi, hrange.1, hrange.2, List.mem_singleton.mp hw⟩

theorem LevelPlan.write {file : Path} {domain : String} {clock : Option UInt32}
    (h : LevelPlan fs file domain clock p) (hw : w ∈ p.writes) :
    ∃ mhz index, clock = some mhz ∧ Advertised fs file mhz index ∧ w = ⟨file, decimal index.toNat⟩ := by
  cases h with
  | unchanged => cases hw
  | locked mhz index hindex hfile => exact ⟨mhz, index, rfl, hindex, List.mem_singleton.mp hw⟩

theorem FanPlan.write {fan : Option UInt32} (h : FanPlan fs hwmon fan p) (hw : w ∈ p.writes) :
    ∃ hw, hwmon = some hw ∧ (w.path = child hw "pwm1_enable" ∨ w.path = child hw "pwm1") := by
  cases h with
  | unchanged => cases hw
  | automatic hw' hhw hfile => exact ⟨hw', hhw, Or.inl (congrArg AmdWrite.path (List.mem_singleton.mp hw))⟩
  | manual percent hw' maximum policy hhw =>
      refine ⟨hw', hhw, ?_⟩
      rw [List.mem_pair] at hw
      exact hw.imp (congrArg AmdWrite.path) (congrArg AmdWrite.path)

/-- A clock write is a reset without a level, or comes without a reset. -/
theorem ClockPlan.write {core memory : Option UInt32} (h : ClockPlan fs device core memory p)
    (hw : w ∈ p.writes) :
    (w = ⟨child device "power_dpm_force_performance_level", "auto".toList⟩ ∧ p.writes = [w]) ∨
      w = ⟨child device "power_dpm_force_performance_level", "manual".toList⟩ ∨
      (∃ mhz index, core = some mhz ∧ Advertised fs (child device "pp_dpm_sclk") mhz index ∧
        w = ⟨child device "pp_dpm_sclk", decimal index.toNat⟩) ∨
      ∃ mhz index, memory = some mhz ∧ Advertised fs (child device "pp_dpm_mclk") mhz index ∧
        w = ⟨child device "pp_dpm_mclk", decimal index.toNat⟩ := by
  cases h with
  | unchanged => cases hw
  | automatic =>
      obtain rfl := List.mem_singleton.mp hw
      exact Or.inl ⟨rfl, rfl⟩
  | locked _ _ sc mc _ _ _ _ hsc hmc =>
      rcases List.mem_append.mp hw with hw | hw
      · exact Or.inr (Or.inl (List.mem_singleton.mp hw))
      rcases List.mem_append.mp hw with hw | hw
      · exact Or.inr (Or.inr (Or.inl (hsc.write hw)))
      · exact Or.inr (Or.inr (Or.inr (hmc.write hw)))

variable {nv : Nvml η} {h : η} {setting : Option UInt32} {calls : List NvmlCall}

theorem NvmlPower.call {target : UInt32} (hcalls : NvmlPower nv h setting calls)
    (hc : .setPower target ∈ calls) :
    ∃ lo hi, Answers nv.limits h (lo, hi) ∧ lo ≤ target ∧ target ≤ hi := by
  cases hcalls with
  | unchanged => cases hc
  | limit watts lo hi target' hlimits _ hrange =>
      cases List.mem_singleton.mp hc
      exact ⟨lo, hi, hlimits, hrange⟩

theorem NvmlClock.call {bound : UInt32} {lock : UInt32 → NvmlCall} {reset c : NvmlCall}
    (hcalls : NvmlClock bound lock reset setting calls) (hc : c ∈ calls) :
    c = reset ∨ ∃ mhz, c = lock mhz := by
  cases hcalls with
  | unchanged => cases hc
  | automatic => exact Or.inl (List.mem_singleton.mp hc)
  | locked mhz _ => exact Or.inr ⟨mhz, List.mem_singleton.mp hc⟩

theorem NvmlFan.call {c : NvmlCall} (hcalls : NvmlFan nv h setting calls) (hc : c ∈ calls) :
    ∃ f, c = .defaultFan f ∨ ∃ percent, c = .setFan f percent := by
  cases hcalls with
  | unchanged => cases hc
  | automatic count _ _ =>
      obtain ⟨f, -, rfl⟩ := List.mem_map.mp hc
      exact ⟨f.toUInt32, Or.inl rfl⟩
  | manual percent count _ _ _ =>
      obtain ⟨f, -, rfl⟩ := List.mem_map.mp hc
      exact ⟨f.toUInt32, Or.inr ⟨percent, rfl⟩⟩

theorem findHwmon_child {directory hw : Path} {entries : List (Except String Text)}
    (h : findHwmon fs directory entries = .ok (some hw)) : directory <+: hw := by
  induction entries with
  | nil => cases pure_eq_ok.mp h
  | cons e rest ih =>
      rw [findHwmon] at h
      obtain ⟨name, -, h⟩ := bind_eq_ok.mp h
      dsimp only at h
      split at h
      · cases pure_eq_ok.mp h
        exact List.prefix_append _ _
      · exact ih h

end

/-- What the commands for a device are, whatever they are. -/
structure Sound (m : Machine η) (d : GpuInfo) (s : Settings) (script : List (Command η)) : Prop where
  /-- They go to the files of this card, or to its handle. -/
  files : ∀ w, .file w ∈ script → d.amd = true ∧ pciDevices ++ [d.pciBus] <+: w.path
  calls : ∀ h c, .call h c ∈ script → d.amd = false ∧ handleOf m.nvml d = some h
  /-- Power lies in the range that was read. -/
  cap : ∀ hw value, .file ⟨child hw "power1_cap", value⟩ ∈ script → ∃ lo hi target,
    number m.fs (child hw "power1_cap_min") = some lo ∧
      number m.fs (child hw "power1_cap_max") = some hi ∧
      lo ≤ target ∧ target ≤ hi ∧ value = decimal target.toNat
  limit : ∀ h target, .call h (.setPower target) ∈ script →
    ∃ lo hi, Answers m.nvml.limits h (lo, hi) ∧ lo ≤ target ∧ target ≤ hi
  /-- A level is advertised with the requested MHz. -/
  core : ∀ device value, .file ⟨child device "pp_dpm_sclk", value⟩ ∈ script → ∃ mhz index,
    s.core = some mhz ∧ Advertised m.fs (child device "pp_dpm_sclk") mhz index ∧
      value = decimal index.toNat
  memory : ∀ device value, .file ⟨child device "pp_dpm_mclk", value⟩ ∈ script → ∃ mhz index,
    s.memory = some mhz ∧ Advertised m.fs (child device "pp_dpm_mclk") mhz index ∧
      value = decimal index.toNat
  /-- A reset comes without a level. -/
  reset : ∀ device,
    .file ⟨child device "power_dpm_force_performance_level", "auto".toList⟩ ∈ script →
      ∀ other value, .file ⟨child other "pp_dpm_sclk", value⟩ ∉ script ∧
        .file ⟨child other "pp_dpm_mclk", value⟩ ∉ script

theorem Planned.sound {m : Machine η} {d : GpuInfo} {s : Settings} {plan : AmdPlan}
    (hamd : d.amd = true) (h : Planned m.fs pciDevices d s.core s.memory s.power s.fan plan) :
    Sound m d s (plan.writes.map .file) := by
  obtain ⟨hwmon, power, clocks, cooling, ⟨-, -, hhwmon⟩, hpower, hclocks, hcooling⟩ := h
  have hcases {w : AmdWrite} (hw : Command.file w ∈ ((power ++ (clocks ++ cooling)).writes.map .file :
      List (Command η))) : w ∈ power.writes ∨ w ∈ clocks.writes ∨ w ∈ cooling.writes := by
    obtain ⟨w', hw', hfile⟩ := List.mem_map.mp hw
    cases hfile
    exact (List.mem_append.mp hw').imp_right List.mem_append.mp
  have hnocall {h : η} {c : NvmlCall} :
      Command.call h c ∉ ((power ++ (clocks ++ cooling)).writes.map .file : List (Command η)) := by
    simp
  -- the name of a file tells which setting it belongs to
  have hclock {device : Path} {name : String} {value : Text}
      (hname : name ≠ "power1_cap" ∧ name ≠ "pwm1_enable" ∧ name ≠ "pwm1")
      (hmem : Command.file ⟨child device name, value⟩ ∈
        ((power ++ (clocks ++ cooling)).writes.map .file : List (Command η))) :
      ⟨child device name, value⟩ ∈ clocks.writes := by
    rcases hcases hmem with hmem | hmem | hmem
    · have hcap := hpower.write hmem
      simp [child_inj, hname] at hcap
    · exact hmem
    · have hfan := hcooling.write hmem
      simp [child_inj, hname] at hfan
  have hprefix {hw : Path} (hhw : hwmon = some hw) (name : String) :
      pciDevices ++ [d.pciBus] <+: child hw name := by
    rw [hhw] at hhwmon
    exact ((List.prefix_append _ _).trans (findHwmon_child hhwmon)).trans (List.prefix_append _ _)
  refine ⟨?_, ?_, ?_, ?_, ?_, ?_, ?_⟩
  · intro w hw
    refine ⟨hamd, ?_⟩
    rcases hcases hw with hw | hw | hw
    · obtain ⟨hw, lo, hi, target, hhw, -, -, -, -, rfl⟩ := hpower.write hw
      exact hprefix hhw _
    · rcases hclocks.write hw with ⟨rfl, -⟩ | rfl | ⟨_, _, -, -, rfl⟩ | ⟨_, _, -, -, rfl⟩
      all_goals exact List.prefix_append _ _
    · obtain ⟨hw, hhw, hpath | hpath⟩ := hcooling.write hw
      all_goals
        rw [hpath]
        exact hprefix hhw _
  · intro h c hc
    exact absurd hc hnocall
  · intro hw value hmem
    rcases hcases hmem with hmem | hmem | hmem
    · obtain ⟨hw', lo, hi, target, -, hlo, hhi, hlow, hhigh, heq⟩ := hpower.write hmem
      obtain ⟨hpath, rfl⟩ := AmdWrite.mk.inj heq
      obtain ⟨rfl, -⟩ := child_inj.mp hpath
      exact ⟨lo, hi, target, hlo, hhi, hlow, hhigh, rfl⟩
    · have hclock := hclocks.write hmem
      simp [child_inj] at hclock
    · have hfan := hcooling.write hmem
      simp [child_inj] at hfan
  · intro h target hc
    exact absurd hc hnocall
  · intro device value hmem
    rcases hclocks.write (hclock (by decide) hmem) with h | h | ⟨mhz, index, hmhz, hindex, h⟩ | h
    · simp [child_inj] at h
    · simp [child_inj] at h
    · obtain ⟨hpath, rfl⟩ := AmdWrite.mk.inj h
      rw [hpath]
      exact ⟨mhz, index, hmhz, hindex, rfl⟩
    · simp [child_inj] at h
  · intro device value hmem
    rcases hclocks.write (hclock (by decide) hmem) with h | h | h | ⟨mhz, index, hmhz, hindex, h⟩
    · simp [child_inj] at h
    · simp [child_inj] at h
    · simp [child_inj] at h
    · obtain ⟨hpath, rfl⟩ := AmdWrite.mk.inj h
      rw [hpath]
      exact ⟨mhz, index, hmhz, hindex, rfl⟩
  · intro device hmem other value
    rcases hclocks.write (hclock (by decide) hmem) with ⟨-, honly⟩ | h | h | h
    · constructor
      all_goals
        intro hlevel
        have hlevel := hclock (by decide) hlevel
        rw [honly] at hlevel
        simp [child_inj] at hlevel
    · simp at h
    · simp [child_inj] at h
    · simp [child_inj] at h

theorem DeviceCommands.sound {m : Machine η} {d : GpuInfo} {s : Settings} {script : List (Command η)}
    (h : DeviceCommands m d s script) : Sound m d s script := by
  cases h with
  | amd plan hamd hplan => exact hplan.sound hamd
  | nvml h power core memory fan hamd hhandle hpower hcore hmemory hfan =>
      have hnofile {w : AmdWrite} :
          Command.file w ∉ (power ++ core ++ memory ++ fan).map (Command.call h) := by simp
      refine ⟨?_, ?_, ?_, ?_, ?_, ?_, ?_⟩
      · exact fun w hw => absurd hw hnofile
      · intro h' c hc
        obtain ⟨c', -, hc'⟩ := List.mem_map.mp hc
        cases hc'
        exact ⟨hamd, hhandle⟩
      · exact fun _ _ hw => absurd hw hnofile
      · intro h' target hc
        obtain ⟨c, hc, hc'⟩ := List.mem_map.mp hc
        cases hc'
        rw [List.mem_append, List.mem_append, List.mem_append] at hc
        rcases hc with ((hc | hc) | hc) | hc
        · exact hpower.call hc
        · exact absurd (hcore.call hc) (by simp)
        · exact absurd (hmemory.call hc) (by simp)
        · exact absurd (hfan.call hc) (by simp)
      · exact fun _ _ hw => absurd hw hnofile
      · exact fun _ _ hw => absurd hw hnofile
      · exact fun _ hw => absurd hw hnofile

section

variable {nv : Nvml η} {outcome : Outcomes}

/-- What can be wrong with a command: the driver does not provide the function,
or the attempt is refused. -/
def faults (nv : Nvml η) (outcome : Outcomes) : Faults (Command η) where
  missing command e := ∃ h c, command = .call h c ∧ nv.provides c.operation = false ∧
    e = missingOperation c.operation
  refused n command e := ∃ reason, outcome n = some reason ∧
    ((∃ w, command = .file w ∧ e = refusal w reason) ∨
      ∃ h c, command = .call h c ∧ e = c.operation ++ ": " ++ reason)

theorem performs_call (h : η) (c : NvmlCall) :
    Performs (call nv outcome h c) [.call h c] (Stopped (faults nv outcome) [.call h c]) := by
  unfold call
  split
  · rename_i hmissing
    exact performs_throw ⟨h, c, rfl, hmissing, rfl⟩
  · exact performs_attempt fun n reason hreason => ⟨reason, hreason, Or.inr ⟨h, c, rfl, rfl⟩⟩

theorem performs_applySetting (h : η) (setting : Option UInt32) (calls : UInt32 → List NvmlCall)
    (event : UInt32 → String) (events : List String) :
    Performs (applySetting nv outcome h setting calls event events)
      ((setting.elim [] calls).map (.call h))
      (Stopped (faults nv outcome) ((setting.elim [] calls).map (.call h))) := by
  cases setting with
  | none => exact performs_pure _ _
  | some value =>
      have hcalls : Performs ((calls value).foldlM (fun _ c => call nv outcome h c) ())
          ((calls value).flatMap fun c => [.call h c])
          (StoppedAt (fun c => [.call h c]) (fun c => Stopped (faults nv outcome) [.call h c])
            (calls value)) :=
        performs_foldlM (fun _ c _ => performs_call h c) ()
      rw [Option.elim_some, List.map_eq_flatMap]
      exact (hcalls.mono fun n tail e htail => htail.flatten).map

def pwmWrite (hw : Path) (duty : Text) : AmdWrite := ⟨child hw "pwm1", duty⟩

def policyWrite (hw : Path) (policy : UInt64) : AmdWrite :=
  ⟨child hw "pwm1_enable", decimal policy.toNat⟩

/-- How the commands for a device end that are not all made, after `n` attempts
for other devices, and why. -/
inductive Stops (m : Machine η) (outcome : Outcomes) (script : List (Command η)) (n : Nat) :
    Log (Command η) → String → Prop
  /-- A function is missing, or a command is refused that is no PWM write. -/
  | stopped (tail : Log (Command η)) (e : String)
      (htail : Stopped (faults m.nvml outcome) script n tail e)
      (hother : ∀ hw duty, (.file (pwmWrite hw duty), false) ∉ tail) : Stops m outcome script n tail e
  /-- The PWM is refused, and the fan policy written before it is written back. -/
  | restored (made : List (Command η)) (hw : Path) (duty : Text) (policy : UInt64) (reason : String)
      (hscript : script = made ++ [.file (pwmWrite hw duty)])
      (hpolicy : number m.fs (child hw "pwm1_enable") = some policy)
      (hreason : outcome (n + made.length) = some reason)
      (htaken : outcome (n + made.length + 1) = none) :
      Stops m outcome script n
        (done made ++ [(.file (pwmWrite hw duty), false), (.file (policyWrite hw policy), true)])
        (refusal (pwmWrite hw duty) reason)
  /-- Neither is taken. -/
  | stranded (made : List (Command η)) (hw : Path) (duty : Text) (policy : UInt64)
      (reason later : String) (hscript : script = made ++ [.file (pwmWrite hw duty)])
      (hpolicy : number m.fs (child hw "pwm1_enable") = some policy)
      (hreason : outcome (n + made.length) = some reason)
      (hlater : outcome (n + made.length + 1) = some later) :
      Stops m outcome script n
        (done made ++ [(.file (pwmWrite hw duty), false), (.file (policyWrite hw policy), false)])
        (refusal (pwmWrite hw duty) reason ++ "; previous fan policy could not be restored: " ++
          refusal (policyWrite hw policy) later)

/-- A fan policy is only written back after the last write of the plan. -/
theorem Planned.restore_last {fs : Sysfs} {root : Path} {d : GpuInfo}
    {core memory power fan : Option UInt32} {p : AmdPlan}
    (h : Planned fs root d core memory power fan p) {first rest : List AmdWrite} {w r : AmdWrite}
    (hwrites : p.writes = first ++ w :: rest) (hr : p.fanRestore = some r)
    (hchanged : ∃ v ∈ first, Restores p.fanRestore v) :
    rest = [] ∧ ∃ hw duty policy, w = pwmWrite hw duty ∧ r = policyWrite hw policy ∧
      number fs (child hw "pwm1_enable") = some policy := by
  obtain ⟨hwmon, others, cooling, hothers, hcooling, rfl⟩ := h.split
  rw [AmdPlan.fanRestore_append, hothers.1, Option.or_none] at hr hchanged
  cases hcooling with
  | unchanged => cases hr
  | automatic => cases hr
  | manual percent hw maximum policy hhw hpercent hmaximum hpositive hpolicy hknown henable hpwm =>
      cases hr
      obtain ⟨v, hv, _, hr, hpath⟩ := hchanged
      cases hr
      have hmanual : v ∉ others.writes := fun hmem =>
        hothers.2 v hmem (by rw [hpath]; exact isPolicy_child.mpr rfl)
      -- the first write to the policy is the one before the last
      rcases List.append_eq_append_iff.mp hwrites with ⟨made, rfl, hmade⟩ | ⟨later, hothers', -⟩
      · rcases List.cons_eq_append_iff.mp hmade with ⟨rfl, -⟩ | ⟨made, rfl, hlast⟩
        · rw [List.append_nil] at hv
          exact absurd hv hmanual
        · rcases List.cons_eq_append_iff.mp hlast with ⟨rfl, hrest⟩ | ⟨made, rfl, hrest⟩
          · obtain ⟨rfl, rfl⟩ := List.cons.inj hrest
            exact ⟨rfl, hw, _, policy, rfl, rfl, hpolicy⟩
          · simp at hrest
      · rw [hothers'] at hmanual
        exact absurd (List.mem_append_left _ hv) hmanual

/-- A PWM is only written after the fan policy. -/
theorem Planned.pwm_after {fs : Sysfs} {root : Path} {d : GpuInfo}
    {core memory power fan : Option UInt32} {p : AmdPlan}
    (h : Planned fs root d core memory power fan p) {first rest : List AmdWrite} {hw : Path}
    {duty : Text} (hwrites : p.writes = first ++ pwmWrite hw duty :: rest) :
    ∃ v ∈ first, Restores p.fanRestore v := by
  obtain ⟨hwmon, cap, clocks, cooling, -, hcap, hclocks, hcooling⟩ := h
  have hothers : pwmWrite hw duty ∉ (cap ++ clocks).writes := by
    intro hmem
    rcases List.mem_append.mp hmem with hmem | hmem
    · have hname := hcap.write hmem
      simp [pwmWrite, child_inj] at hname
    · have hname := hclocks.write hmem
      simp [pwmWrite, child_inj] at hname
  have hrestore := (hcap.leavesFan.append hclocks.leavesFan).1
  rw [← AmdPlan.append_assoc] at hwrites ⊢
  rw [AmdPlan.fanRestore_append, hrestore, Option.or_none]
  rw [AmdPlan.writes_append] at hwrites
  have hcooling_mem : pwmWrite hw duty ∈ cooling.writes := by
    have hmem : pwmWrite hw duty ∈ (cap ++ clocks).writes ++ cooling.writes := by
      rw [hwrites]
      exact List.mem_append_right _ List.mem_cons_self
    exact (List.mem_append.mp hmem).resolve_left hothers
  cases hcooling with
  | unchanged => cases hcooling_mem
  | automatic =>
      have hname := List.mem_singleton.mp hcooling_mem
      simp [pwmWrite, child_inj] at hname
  | manual percent hw' maximum policy =>
      refine ⟨⟨child hw' "pwm1_enable", "1".toList⟩, ?_, _, rfl, rfl⟩
      -- the policy is the write before the last one, and the PWM is not among the others
      rcases List.append_eq_append_iff.mp hwrites with ⟨made, rfl, hmade⟩ | ⟨later, hbefore, hlater⟩
      · rcases List.cons_eq_append_iff.mp hmade with ⟨rfl, hlast⟩ | ⟨made', rfl, -⟩
        · have hname := (List.cons.inj hlast).1
          simp [pwmWrite, child_inj] at hname
        · simp
      · rcases List.cons_eq_append_iff.mp hlater with ⟨rfl, hlast⟩ | ⟨later', rfl, -⟩
        · have hname := (List.cons.inj hlast).1
          simp [pwmWrite, child_inj] at hname
        · rw [hbefore] at hothers
          simp at hothers

theorem performs_amdApply {m : Machine η} {root : Path} {d : GpuInfo}
    {core memory power fan : Option UInt32} {p : AmdPlan}
    (h : Planned m.fs root d core memory power fan p) :
    Performs (amdApply outcome Command.file p) (p.writes.map .file)
      (Stops m outcome (p.writes.map .file)) := by
  intro log
  refine (amdApply_ends p log).mono (fun _ _ h => h) ?_
  rintro e _ ⟨tail, hstopped, rfl⟩
  refine ⟨tail, ?_, rfl⟩
  cases hstopped with
  | failed first w rest reason hwrites hreason hkept =>
      refine .stopped _ _ (.refused (first.map Command.file) (.file w) (rest.map Command.file) _ ?_ ?_) ?_
      · rw [hwrites, List.map_append, List.map_cons]
      · rw [List.length_map]
        exact ⟨reason, hreason, Or.inl ⟨w, rfl, rfl⟩⟩
      · intro hw duty hmem
        rcases List.mem_append.mp hmem with hmem | hmem
        · obtain ⟨_, -, hentry⟩ := List.mem_map.mp hmem
          cases hentry
        · cases List.mem_singleton.mp hmem
          obtain ⟨v, hv, hrestores⟩ := h.pwm_after hwrites
          exact hkept v hv hrestores
  | restored first w rest r reason hwrites hrestore hreason htaken hchanged =>
      obtain ⟨rfl, hw, duty, policy, rfl, rfl, hpolicy⟩ := h.restore_last hwrites hrestore hchanged
      refine .restored _ hw duty policy reason ?_ hpolicy (by rwa [List.length_map])
        (by rwa [List.length_map])
      rw [hwrites, List.map_append, List.map_singleton]
  | stranded first w rest r reason later hwrites hrestore hreason hlater hchanged =>
      obtain ⟨rfl, hw, duty, policy, rfl, rfl, hpolicy⟩ := h.restore_last hwrites hrestore hchanged
      refine .stranded _ hw duty policy reason later ?_ hpolicy (by rwa [List.length_map])
        (by rwa [List.length_map])
      rw [hwrites, List.map_append, List.map_singleton]

theorem planned_of_validate {m : Machine η} {p : Position η} {plan : AmdPlan}
    (h : validate m p = .ok (.amd plan)) :
    Planned m.fs pciDevices p.device p.settings.core p.settings.memory p.settings.power
      p.settings.fan plan := by
  unfold validate at h
  dsimp only at h
  split at h
  · obtain ⟨plan', hplan, h⟩ := bind_eq_ok.mp h
    cases pure_eq_ok.mp h
    exact amdControlPlan_eq_ok.mp hplan
  split at h
  · cases h
  obtain ⟨-, h⟩ := guard_eq_ok.mp h
  obtain ⟨-, h⟩ := guard_eq_ok.mp h
  obtain ⟨power, -, h⟩ := bind_eq_ok.mp h
  obtain ⟨count, -, h⟩ := bind_eq_ok.mp h
  cases pure_eq_ok.mp h

theorem performs_applyDevice {m : Machine η} {p : Position η} {r : Resolved η}
    (h : validate m p = .ok r) (events : List String) :
    Performs (applyDevice m.nvml outcome p r events) (r.commands p.settings)
      (fun n tail e => ∃ cause, Stops m outcome (r.commands p.settings) n tail cause ∧
        e = controlFailed p.device cause) := by
  unfold applyDevice
  refine Performs.rethrow ?_
  cases r with
  | amd plan =>
      exact (performs_amdApply (planned_of_validate h)).map
  | nvml h power fanCount =>
      refine Performs.mono ?_ fun n tail e htail =>
        Stops.stopped tail e htail fun hw duty hmem => ?_
      · rw [Resolved.commands, List.map_append, List.map_append, List.map_append, List.append_assoc,
          List.append_assoc]
        refine Performs.bind (performs_applySetting _ _ _ _ _) fun events => ?_
        refine Performs.bind (performs_applySetting _ _ _ _ _) fun events => ?_
        refine Performs.bind (performs_applySetting _ _ _ _ _) fun events => ?_
        exact performs_applySetting _ _ _ _ _
      · have hscript := htail.mem hmem
        simp [Resolved.commands] at hscript

end

/-! ### The checks of a run -/

/-- A list that is given for no device, for all of them at once or for each. -/
def Fits (v : List UInt32) (count : Nat) : Prop := v.length = 0 ∨ v.length = 1 ∨ v.length = count

/-- Nothing that is checked stands against the controls. -/
structure Accepted (m : Machine η) (devices : List GpuInfo) (c : GpuControls) : Prop where
  selected : devices ≠ []
  lengths : ∀ v ∈ [c.coreMhz, c.memoryMhz, c.powerWatts, c.fanPercent], Fits v devices.length
  commands : ∀ i d, devices[i]? = some d → ∃ script, DeviceCommands m d (settingsAt c i) script

theorem broadcastValues_ok {v : List UInt32} {count : Nat} :
    (∃ w, broadcastValues v count = .ok w) ↔ Fits v count := by
  match v with
  | [] => exact ⟨fun _ => Or.inl rfl, fun _ => ⟨_, rfl⟩⟩
  | [value] => exact ⟨fun _ => Or.inr (Or.inl rfl), fun _ => ⟨_, rfl⟩⟩
  | first :: second :: rest =>
      unfold broadcastValues Fits
      constructor
      · rintro ⟨w, h⟩
        exact Or.inr (Or.inr (not_not.mp (guard_eq_ok.mp h).1))
      · intro h
        refine ⟨_, guard_eq_ok.mpr ⟨not_not.mpr ?_, rfl⟩⟩
        simpa using h

theorem broadcastValues_entry {v w : List UInt32} {count i : Nat} (h : broadcastValues v count = .ok w)
    (hi : i < count) : w[i]? = entry v i := by
  match v with
  | [] =>
      cases h
      rfl
  | [value] =>
      cases h
      rw [List.getElem?_replicate, if_pos hi]
      rfl
  | first :: second :: rest =>
      obtain rfl := pure_eq_ok.mp (guard_eq_ok.mp h).2
      rw [entry, if_neg (by simp)]

/-- The devices with their handles and their entries. -/
def positionAt (m : Machine η) (c : GpuControls) (i : Nat) (d : GpuInfo) : Position η :=
  ⟨d, handleOf m.nvml d, settingsAt c i⟩

theorem positions_eq_ok {m : Machine η} {devices : List GpuInfo} {c : GpuControls}
    {ps : List (Position η)} :
    positions m.nvml devices c = .ok ps ↔
      (∀ v ∈ [c.coreMhz, c.memoryMhz, c.powerWatts, c.fanPercent], Fits v devices.length) ∧
        ps = devices.mapIdx (positionAt m c) := by
  have hplaced {core mem power fan : List UInt32}
      (hcore : broadcastValues c.coreMhz devices.length = .ok core)
      (hmem : broadcastValues c.memoryMhz devices.length = .ok mem)
      (hpower : broadcastValues c.powerWatts devices.length = .ok power)
      (hfan : broadcastValues c.fanPercent devices.length = .ok fan) :
      (devices.mapIdx fun i d =>
        (⟨d, handleOf m.nvml d, ⟨core[i]?, mem[i]?, power[i]?, fan[i]?⟩⟩ : Position η)) =
        devices.mapIdx (positionAt m c) := by
    apply List.ext_getElem?
    intro i
    rw [List.getElem?_mapIdx, List.getElem?_mapIdx]
    cases hd : devices[i]? with
    | none => rfl
    | some d =>
        have hi := (List.getElem?_eq_some_iff.mp hd).1
        rw [Option.map_some, Option.map_some, broadcastValues_entry hcore hi,
          broadcastValues_entry hmem hi, broadcastValues_entry hpower hi, broadcastValues_entry hfan hi]
        rfl
  simp only [List.forall_mem_cons, List.not_mem_nil, false_implies, implies_true, and_true,
    ← broadcastValues_ok]
  constructor
  · intro h
    obtain ⟨core, hcore, h⟩ := bind_eq_ok.mp h
    obtain ⟨mem, hmem, h⟩ := bind_eq_ok.mp h
    obtain ⟨power, hpower, h⟩ := bind_eq_ok.mp h
    obtain ⟨fan, hfan, h⟩ := bind_eq_ok.mp h
    rw [← pure_eq_ok.mp h]
    exact ⟨⟨⟨core, hcore⟩, ⟨mem, hmem⟩, ⟨power, hpower⟩, ⟨fan, hfan⟩⟩, hplaced hcore hmem hpower hfan⟩
  · rintro ⟨⟨⟨core, hcore⟩, ⟨mem, hmem⟩, ⟨power, hpower⟩, ⟨fan, hfan⟩⟩, rfl⟩
    rw [positions, hcore, ok_bind, hmem, ok_bind, hpower, ok_bind, hfan, ok_bind,
      hplaced hcore hmem hpower hfan]
    rfl

theorem validated_eq_ok {m : Machine η} {p : Position η} {y : Position η × Resolved η} :
    (do let r ← validate m p; pure (p, r)) = .ok y ↔ y.1 = p ∧ validate m p = .ok y.2 := by
  rw [bind_eq_ok]
  constructor
  · rintro ⟨r, hr, h⟩
    obtain rfl := pure_eq_ok.mp h
    exact ⟨rfl, hr⟩
  · rintro ⟨rfl, hr⟩
    exact ⟨y.2, hr, rfl⟩

/-- The checks leave the commands of every device. -/
theorem checkedPositions_ok {m : Machine η} {devices : List GpuInfo} {c : GpuControls}
    {checked : List (Position η × Resolved η)} (h : checkedPositions m devices c = .ok checked) :
    Accepted m devices c ∧ checked.length = devices.length ∧
      (∀ i d y, devices[i]? = some d → checked[i]? = some y → y.1.device = d ∧
        DeviceCommands m d (settingsAt c i) (y.2.commands y.1.settings)) ∧
      ∀ y ∈ checked, validate m y.1 = .ok y.2 := by
  obtain ⟨hselected, h⟩ := guard_eq_ok.mp h
  obtain ⟨ps, hps, h⟩ := bind_eq_ok.mp h
  obtain ⟨hlengths, rfl⟩ := positions_eq_ok.mp hps
  have hall := mapM_eq_ok.mp h
  simp only [validated_eq_ok] at hall
  have hlength : checked.length = devices.length := by
    rw [← hall.length_eq, List.length_mapIdx]
  have hcommands (i : Nat) (d : GpuInfo) (y : Position η × Resolved η) (hd : devices[i]? = some d)
      (hy : checked[i]? = some y) :
      y.1.device = d ∧ DeviceCommands m d (settingsAt c i) (y.2.commands y.1.settings) := by
    obtain ⟨hi, rfl⟩ := List.getElem?_eq_some_iff.mp hd
    obtain ⟨hi', rfl⟩ := List.getElem?_eq_some_iff.mp hy
    obtain ⟨hposition, hvalid⟩ := (List.forall₂_iff_get.mp hall).2 i (by rwa [List.length_mapIdx]) hi'
    simp only [List.get_eq_getElem, List.getElem_mapIdx] at hposition hvalid
    have hdevice := (validate_iff (p := positionAt m c i devices[i]) rfl).mp ⟨_, hvalid, rfl⟩
    rw [hposition]
    exact ⟨rfl, hdevice⟩
  refine ⟨⟨hselected, hlengths, ?_⟩, hlength, hcommands, ?_⟩
  · intro i d hd
    have hi := (List.getElem?_eq_some_iff.mp hd).1
    exact ⟨_, (hcommands i d _ hd (List.getElem?_eq_getElem (by rwa [hlength]))).2⟩
  · intro y hy
    obtain ⟨i, hi, rfl⟩ := List.getElem_of_mem hy
    obtain ⟨hposition, hvalid⟩ :=
      (List.forall₂_iff_get.mp hall).2 i (by rwa [List.length_mapIdx, ← hlength]) hi
    rw [← hposition] at hvalid
    exact hvalid

theorem checkedPositions_of_accepted {m : Machine η} {devices : List GpuInfo} {c : GpuControls}
    (h : Accepted m devices c) : ∃ checked, checkedPositions m devices c = .ok checked := by
  have hvalid : ∀ p ∈ devices.mapIdx (positionAt m c),
      ∃ y : Position η × Resolved η, (do let r ← validate m p; pure (p, r)) = .ok y := by
    intro p hp
    obtain ⟨i, hi, rfl⟩ := List.mem_mapIdx.mp hp
    obtain ⟨script, hscript⟩ := h.commands i devices[i] (List.getElem?_eq_getElem hi)
    obtain ⟨r, hr, -⟩ := (validate_iff (p := positionAt m c i devices[i]) rfl).mpr hscript
    exact ⟨(_, r), validated_eq_ok.mpr ⟨rfl, hr⟩⟩
  obtain ⟨checked, hchecked⟩ := mapM_total hvalid
  refine ⟨checked, guard_eq_ok.mpr ⟨h.selected, ?_⟩⟩
  rw [positions_eq_ok.mpr ⟨h.lengths, rfl⟩, ok_bind, hchecked]

theorem apply_of_not_requested (m : Machine η) (outcome : Outcomes) (devices : List GpuInfo)
    {c : GpuControls} (h : c.requested = false) : apply m outcome devices c [] = .ok [] [] := by
  rw [apply, if_pos h]
  rfl

theorem apply_of_not_accepted {m : Machine η} (outcome : Outcomes) {devices : List GpuInfo}
    {c : GpuControls} (hrequested : c.requested = true) (hnot : ¬ Accepted m devices c) :
    ∃ e, apply m outcome devices c [] = .error e [] := by
  cases hchecked : checkedPositions m devices c with
  | ok checked => exact absurd (checkedPositions_ok hchecked).1 hnot
  | error e =>
      refine ⟨e, ?_⟩
      rw [apply, if_neg (Bool.not_eq_false _ ▸ hrequested), hchecked]
      rfl

theorem apply_of_accepted {m : Machine η} (outcome : Outcomes) {devices : List GpuInfo}
    {c : GpuControls} (hrequested : c.requested = true) (haccepted : Accepted m devices c) :
    ∃ scripts : List (List (Command η)), scripts.length = devices.length ∧
      (∀ i d script, devices[i]? = some d → scripts[i]? = some script →
        DeviceCommands m d (settingsAt c i) script ∧ Sound m d (settingsAt c i) script) ∧
      Ends (apply m outcome devices c) (fun _ log => log = done scripts.flatten)
        (fun e log => ∃ earlier script later tail d cause,
          scripts = earlier ++ script :: later ∧ devices[earlier.length]? = some d ∧
            Stops m outcome script earlier.flatten.length tail cause ∧
            log = done earlier.flatten ++ tail ∧ e = controlFailed d cause) [] := by
  obtain ⟨checked, hchecked⟩ := checkedPositions_of_accepted haccepted
  obtain ⟨-, hlength, hcommands, hvalid⟩ := checkedPositions_ok hchecked
  refine ⟨checked.map fun y => y.2.commands y.1.settings, by rw [List.length_map, hlength], ?_, ?_⟩
  · intro i d script hd hscript
    rw [List.getElem?_map] at hscript
    obtain ⟨y, hy, rfl⟩ := Option.map_eq_some_iff.mp hscript
    have hdevice := (hcommands i d y hd hy).2
    exact ⟨hdevice, hdevice.sound⟩
  · have hrun : Performs
        (checked.foldlM (fun events y => applyDevice m.nvml outcome y.1 y.2 events) [])
        (checked.flatMap fun y => y.2.commands y.1.settings)
        (StoppedAt (fun y => y.2.commands y.1.settings)
          (fun y n tail e => ∃ cause, Stops m outcome (y.2.commands y.1.settings) n tail cause ∧
            e = controlFailed y.1.device cause) checked) :=
      performs_foldlM (fun events y hy => performs_applyDevice (hvalid y hy) events) []
    rw [apply, if_neg (Bool.not_eq_false _ ▸ hrequested), hchecked, ends_bind]
    refine (hrun []).mono ?_ ?_
    · rintro events log rfl
      rw [List.nil_append, List.flatMap_def]
    · rintro e _ ⟨tail, hstopped, rfl⟩
      obtain ⟨_, earlier, y, later, tail, e, rfl, cause, htail, rfl⟩ := hstopped
      have hi : earlier.length < devices.length := by
        rw [← hlength, List.length_append, List.length_cons]
        omega
      have hdevice := (hcommands earlier.length _ y (List.getElem?_eq_getElem hi) (by simp)).1
      rw [List.flatMap_def, List.length_nil, Nat.zero_add] at htail
      refine ⟨_, _, _, tail, devices[earlier.length], cause,
        by rw [List.map_append, List.map_cons], ?_, htail, ?_, by rw [hdevice]⟩
      · rw [List.length_map, List.getElem?_eq_getElem hi]
      · rw [List.flatMap_def]

/-- Controls that are not accepted are refused before anything is written. For
accepted ones every device has its commands, with the values of its entries and
within what its driver allows. They are all made, in the order of the devices, or
the run stops in those of one device: at the first that is refused or whose function
the driver lacks, which the error names, and with one more write where a fan policy
has to be put back. -/
theorem controls_applied (m : Machine η) (outcome : Outcomes) (devices : List GpuInfo)
    (c : GpuControls) :
    (c.requested = false → apply m outcome devices c [] = .ok [] []) ∧
      (c.requested = true → ¬ Accepted m devices c →
        ∃ e, apply m outcome devices c [] = .error e []) ∧
      (c.requested = true → Accepted m devices c → ∃ scripts : List (List (Command η)),
        scripts.length = devices.length ∧
          (∀ i d script, devices[i]? = some d → scripts[i]? = some script →
            DeviceCommands m d (settingsAt c i) script ∧ Sound m d (settingsAt c i) script) ∧
          Ends (apply m outcome devices c) (fun _ log => log = done scripts.flatten)
            (fun e log => ∃ earlier script later tail d cause,
              scripts = earlier ++ script :: later ∧ devices[earlier.length]? = some d ∧
                Stops m outcome script earlier.flatten.length tail cause ∧
                log = done earlier.flatten ++ tail ∧ e = controlFailed d cause) []) :=
  ⟨apply_of_not_requested m outcome devices, apply_of_not_accepted outcome,
    apply_of_accepted outcome⟩

/-- The AMD device, and an NVIDIA device that takes a power limit but no fan speed. -/
def sampleMachine : Machine Nat where
  fs := sampleSysfs
  nvml :=
    { loaded := true, init := some 0
      lookup := some fun bus => if bus = "0000:01:00.0".toList then some 7 else none
      limits := some fun _ => .ok (100000, 300000)
      defaultLimit := some fun _ => some 250000
      numFans := some fun _ => .ok 1
      provides := fun operation => operation = "nvmlDeviceSetPowerManagementLimit" }

def sampleNvidia : GpuInfo := ⟨0, "card".toList, "0000:01:00.0".toList, .cuda, 0, false⟩

/-- A refused PWM write is followed by another write; a missing function is only
missed when it is called; and without a request a device that cannot be looked up
is not noticed. -/
theorem applied_beyond_failure :
    (∃ e, apply sampleMachine refusePwm [sampleGpu] { fanPercent := [50] } [] = .error e
      [(.file ⟨child sampleHwmon "pwm1_enable", "1".toList⟩, true),
        (.file ⟨child sampleHwmon "pwm1", "128".toList⟩, false),
        (.file ⟨child sampleHwmon "pwm1_enable", "2".toList⟩, true)]) ∧
      (∃ e, apply sampleMachine (fun _ => none) [sampleNvidia]
        { powerWatts := [200], fanPercent := [50] } [] = .error e [(.call 7 (.setPower 200000), true)]) ∧
      ∃ d, d.amd = false ∧ handleOf sampleMachine.nvml d = none ∧
        apply sampleMachine (fun _ => none) [d] {} [] = .ok [] [] := by
  refine ⟨?_, ?_, ?_⟩
  · have hchecked : checkedPositions sampleMachine [sampleGpu] { fanPercent := [50] } =
        .ok [(positionAt sampleMachine { fanPercent := [50] } 0 sampleGpu, .amd samplePlan)] := by
      decide +kernel
    rw [apply, if_neg (by decide), hchecked]
    exact ⟨_, rfl⟩
  · have hchecked : checkedPositions sampleMachine [sampleNvidia]
        { powerWatts := [200], fanPercent := [50] } =
        .ok [(positionAt sampleMachine { powerWatts := [200], fanPercent := [50] } 0 sampleNvidia,
          .nvml 7 200000 1)] := by
      decide +kernel
    rw [apply, if_neg (by decide), hchecked]
    exact ⟨_, rfl⟩
  · exact ⟨{ sampleNvidia with pciBus := "0000:02:00.0".toList }, rfl, by decide +kernel, rfl⟩

end Supryolo.Hardware
