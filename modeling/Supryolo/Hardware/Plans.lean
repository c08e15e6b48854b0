import Supryolo.Hardware.Amd

/-!
The plans that exist for an AMD device. Each setting contributes its own writes:
the power cap lies in the range the driver gives, a clock is a level of the DPM
table and never comes together with a reset, and the fan leaves its old policy
behind as the write that restores it. `amdControlPlan` returns exactly these.
-/

namespace Supryolo.Hardware

open Loops

instance : Append AmdPlan where
  append p q := ⟨p.writes ++ q.writes, p.events ++ q.events, q.fanRestore.or p.fanRestore⟩

@[simp] theorem AmdPlan.writes_append (p q : AmdPlan) : (p ++ q).writes = p.writes ++ q.writes := rfl

@[simp] theorem AmdPlan.events_append (p q : AmdPlan) : (p ++ q).events = p.events ++ q.events := rfl

@[simp] theorem AmdPlan.fanRestore_append (p q : AmdPlan) :
    (p ++ q).fanRestore = q.fanRestore.or p.fanRestore := rfl

theorem AmdPlan.append_assoc (p q r : AmdPlan) : p ++ q ++ r = p ++ (q ++ r) := by
  ext1
  · exact List.append_assoc _ _ _
  · exact List.append_assoc _ _ _
  · exact (Option.or_assoc ..).symm

@[simp] theorem AmdPlan.append_empty (p : AmdPlan) : p ++ ({} : AmdPlan) = p := by
  ext1
  · exact List.append_nil _
  · exact List.append_nil _
  · rfl

@[simp] theorem AmdPlan.empty_append (p : AmdPlan) : ({} : AmdPlan) ++ p = p := by
  ext1
  · rfl
  · rfl
  · exact Option.or_none

variable (fs : Sysfs)

def Exposed (file : Path) : Prop := fs.present file = .ok true

/-- A wattage, or the driver's default for 0, in microwatts. -/
def PowerTarget (hw : Path) (watts : UInt32) (target : UInt64) : Prop :=
  (watts ≠ 0 ∧ target.toNat = watts.toNat * 1000000) ∨
    (watts = 0 ∧ number fs (child hw "power1_cap_default") = some target)

inductive PowerPlan (hwmon : Option Path) : Option UInt32 → AmdPlan → Prop
  | unchanged : PowerPlan hwmon none {}
  | cap (watts : UInt32) (hw : Path) (lo hi target : UInt64) (hhw : hwmon = some hw)
      (hlo : number fs (child hw "power1_cap_min") = some lo)
      (hhi : number fs (child hw "power1_cap_max") = some hi)
      (htarget : PowerTarget fs hw watts target) (hrange : lo ≤ target ∧ target ≤ hi)
      (hfile : Exposed fs (child hw "power1_cap")) :
      PowerPlan hwmon (some watts)
        { writes := [⟨child hw "power1_cap", decimal target.toNat⟩]
          events := ["power limit " ++ toString (target / 1000000) ++ " W applied"] }

/-- The first line of a DPM table that offers the wanted MHz. -/
def Advertised (file : Path) (mhz index : UInt32) : Prop :=
  ∃ before line after, fileLines ((fs.content file).getD []) = before ++ line :: after ∧
    dpmLevel line = some (index, mhz) ∧ ∀ other ∈ before, ∀ i, dpmLevel other ≠ some (i, mhz)

inductive LevelPlan (file : Path) (domain : String) : Option UInt32 → AmdPlan → Prop
  | unchanged : LevelPlan file domain none {}
  | locked (mhz index : UInt32) (hindex : Advertised fs file mhz index) (hfile : Exposed fs file) :
      LevelPlan file domain (some mhz)
        { writes := [⟨file, decimal index.toNat⟩]
          events := [domain ++ " clock DPM level " ++ toString mhz ++ " MHz applied"] }

inductive ClockPlan (device : Path) : Option UInt32 → Option UInt32 → AmdPlan → Prop
  | unchanged : ClockPlan device none none {}
  | automatic (core memory : Option UInt32) (hsome : core = some 0 ∨ memory = some 0)
      (hcore : core = none ∨ core = some 0) (hmemory : memory = none ∨ memory = some 0)
      (hfile : Exposed fs (child device "power_dpm_force_performance_level")) :
      ClockPlan device core memory
        { writes := [⟨child device "power_dpm_force_performance_level", "auto".toList⟩]
          events := ["core and memory clock policy automatic applied"] }
  | locked (core memory : Option UInt32) (sc mc : AmdPlan) (hsome : ¬ (core = none ∧ memory = none))
      (hcore : core ≠ some 0) (hmemory : memory ≠ some 0)
      (hfile : Exposed fs (child device "power_dpm_force_performance_level"))
      (hsc : LevelPlan fs (child device "pp_dpm_sclk") "core" core sc)
      (hmc : LevelPlan fs (child device "pp_dpm_mclk") "memory" memory mc) :
      ClockPlan device core memory
        ({ writes := [⟨child device "power_dpm_force_performance_level", "manual".toList⟩] } ++
          (sc ++ mc))

inductive FanPlan (hwmon : Option Path) : Option UInt32 → AmdPlan → Prop
  | unchanged : FanPlan hwmon none {}
  | automatic (hw : Path) (hhw : hwmon = some hw) (hfile : Exposed fs (child hw "pwm1_enable")) :
      FanPlan hwmon (some 0)
        { writes := [⟨child hw "pwm1_enable", "2".toList⟩]
          events := ["automatic fan control applied"] }
  | manual (percent : UInt32) (hw : Path) (maximum policy : UInt64) (hhw : hwmon = some hw)
      (hpercent : 0 < percent ∧ percent ≤ 100)
      (hmaximum : number fs (child hw "pwm1_max") = some maximum) (hpositive : maximum ≠ 0)
      (hpolicy : number fs (child hw "pwm1_enable") = some policy) (hknown : policy ≤ 2)
      (henable : Exposed fs (child hw "pwm1_enable")) (hpwm : Exposed fs (child hw "pwm1")) :
      FanPlan hwmon (some percent)
        { writes := [⟨child hw "pwm1_enable", "1".toList⟩,
            ⟨child hw "pwm1", decimal ((maximum * percent.toUInt64 + 50) / 100).toNat⟩]
          events := ["fan " ++ toString percent ++ "% applied"]
          fanRestore := some ⟨child hw "pwm1_enable", decimal policy.toNat⟩ }

/-- The device is an AMD device, and these are its sensors. -/
def Located (root : Path) (d : GpuInfo) (hwmon : Option Path) : Prop :=
  isPciBus d.pciBus = true ∧ word fs (child (root ++ [d.pciBus]) "vendor") = "0x1002".toList ∧
    findHwmon fs (child (root ++ [d.pciBus]) "hwmon")
      (fs.entries (child (root ++ [d.pciBus]) "hwmon")) = .ok hwmon

inductive Planned (root : Path) (d : GpuInfo) (core memory power fan : Option UInt32) : AmdPlan → Prop
  | settings (hwmon : Option Path) (cap clocks cooling : AmdPlan) (hlocated : Located fs root d hwmon)
      (hcap : PowerPlan fs hwmon power cap)
      (hclocks : ClockPlan fs (root ++ [d.pciBus]) core memory clocks)
      (hcooling : FanPlan fs hwmon fan cooling) :
      Planned root d core memory power fan (cap ++ (clocks ++ cooling))

variable {fs}

theorem note_append (p q : AmdPlan) (event : String) : (p ++ q).note event = p ++ q.note event := by
  ext1
  · rfl
  · exact List.append_assoc _ _ _
  · rfl

theorem add_eq_ok {p p' : AmdPlan} {file : Path} {value : Text} :
    p.add fs file value = .ok p' ↔ Exposed fs file ∧ p' = p ++ ({ writes := [⟨file, value⟩] } : AmdPlan) := by
  have happend : p ++ ({ writes := [⟨file, value⟩] } : AmdPlan) =
      { p with writes := p.writes ++ [⟨file, value⟩] } := by
    ext1
    · rfl
    · exact List.append_nil _
    · rfl
  unfold AmdPlan.add Exposed
  rw [bind_eq_ok, happend]
  constructor
  · rintro ⟨present, hpresent, h⟩
    obtain ⟨hp, h⟩ := guard_eq_ok.mp h
    exact ⟨by rw [hpresent, Bool.of_not_eq_false hp], (pure_eq_ok.mp h).symm⟩
  · rintro ⟨hpresent, rfl⟩
    exact ⟨true, hpresent, rfl⟩

/-- A write with the event that announces it. -/
theorem add_note_eq_ok {p p' : AmdPlan} {file : Path} {value : Text} {event : String} :
    (do let p ← p.add fs file value; pure (p.note event)) = .ok p' ↔
      Exposed fs file ∧ p' = p ++ ({ writes := [⟨file, value⟩], events := [event] } : AmdPlan) := by
  rw [bind_eq_ok]
  constructor
  · rintro ⟨added, hadded, h⟩
    obtain ⟨hfile, rfl⟩ := add_eq_ok.mp hadded
    rw [← pure_eq_ok.mp h, note_append]
    exact ⟨hfile, rfl⟩
  · rintro ⟨hfile, rfl⟩
    refine ⟨_, add_eq_ok.mpr ⟨hfile, rfl⟩, ?_⟩
    rw [note_append]
    rfl

theorem powerTarget_iff {hw : Path} {watts : UInt32} {target : UInt64} :
    (if watts ≠ 0 then some (watts.toUInt64 * 1000000) else number fs (child hw "power1_cap_default")) =
      some target ↔ PowerTarget fs hw watts target := by
  have hmicro : (watts.toUInt64 * 1000000).toNat = watts.toNat * 1000000 := by
    have hwatts := watts.toNat_lt
    rw [UInt64.toNat_mul, UInt32.toNat_toUInt64]
    exact Nat.mod_eq_of_lt (by change watts.toNat * 1000000 < 2 ^ 64; omega)
  unfold PowerTarget
  by_cases hwatts : watts = 0
  · simp [hwatts]
  · rw [if_pos hwatts, Option.some_inj, ← UInt64.toNat_inj, hmicro]
    simp [hwatts, eq_comm]

theorem planPower_eq_ok {hwmon : Option Path} {power : UInt32} {p p' : AmdPlan} :
    planPower fs hwmon power p = .ok p' ↔ ∃ cap, PowerPlan fs hwmon (some power) cap ∧ p' = p ++ cap := by
  constructor
  · intro h
    unfold planPower at h
    split at h
    · cases h
    · rename_i hw
      dsimp only at h
      split at h
      · rename_i lo hi target hlo hhi htarget
        obtain ⟨hrange, h⟩ := guard_eq_ok.mp h
        obtain ⟨hfile, rfl⟩ := add_note_eq_ok.mp h
        rw [not_or, UInt64.not_lt, UInt64.not_lt] at hrange
        exact ⟨_, .cap power hw lo hi target rfl hlo hhi (powerTarget_iff.mp htarget) hrange hfile, rfl⟩
      · cases h
  · rintro ⟨cap, hcap, rfl⟩
    cases hcap with
    | cap watts hw lo hi target hhw hlo hhi htarget hrange hfile =>
        subst hhw
        unfold planPower
        simp only [hlo, hhi, powerTarget_iff.mpr htarget]
        refine guard_eq_ok.mpr ⟨?_, add_note_eq_ok.mpr ⟨hfile, rfl⟩⟩
        rwa [not_or, UInt64.not_lt, UInt64.not_lt]

theorem levelIndex_eq_some {mhz : UInt32} {line text : Text} :
    levelIndex mhz line = some text ↔
      ∃ index, dpmLevel line = some (index, mhz) ∧ text = decimal index.toNat := by
  unfold levelIndex
  cases dpmLevel line with
  | none => simp
  | some entry =>
      by_cases hvalue : entry.2 = mhz
      · simp [hvalue, Prod.ext_iff, eq_comm]
      · simp [hvalue, Prod.ext_iff]

theorem level_eq_ok {file : Path} {mhz : UInt32} {text : Text} :
    level fs file mhz = .ok text ↔ ∃ index, Advertised fs file mhz index ∧ text = decimal index.toNat := by
  have hfound : level fs file mhz = .ok text ↔
      (fileLines ((fs.content file).getD [])).findSome? (levelIndex mhz) = some text := by
    unfold level
    cases (fileLines ((fs.content file).getD [])).findSome? (levelIndex mhz) with
    | none => exact ⟨fun h => (nomatch h), fun h => (nomatch h)⟩
    | some found => rw [pure_eq_ok, Option.some_inj]
  rw [hfound, List.findSome?_eq_some_iff]
  simp only [Option.eq_none_iff_forall_ne_some, ne_eq, levelIndex_eq_some]
  constructor
  · rintro ⟨before, line, after, hlines, ⟨index, hline, rfl⟩, hbefore⟩
    refine ⟨index, ⟨before, line, after, hlines, hline, ?_⟩, rfl⟩
    exact fun other hother i hi => hbefore other hother _ ⟨i, hi, rfl⟩
  · rintro ⟨index, ⟨before, line, after, hlines, hline, hbefore⟩, rfl⟩
    refine ⟨before, line, after, hlines, ⟨index, hline, rfl⟩, ?_⟩
    rintro other hother _ ⟨i, hi, -⟩
    exact hbefore other hother i hi

theorem planLevel_eq_ok {file : Path} {domain : String} {clock : Option UInt32} {p p' : AmdPlan} :
    (∃ index, levelOf fs file clock = .ok index ∧ planLevel fs file domain clock index p = .ok p') ↔
      ∃ q, LevelPlan fs file domain clock q ∧ p' = p ++ q := by
  cases clock with
  | none =>
      constructor
      · rintro ⟨index, -, h⟩
        exact ⟨_, .unchanged, by rw [AmdPlan.append_empty]; exact (pure_eq_ok.mp h).symm⟩
      · rintro ⟨q, hq, rfl⟩
        cases hq
        rw [AmdPlan.append_empty]
        exact ⟨none, rfl, rfl⟩
  | some mhz =>
      constructor
      · rintro ⟨_, hlevel, h⟩
        obtain ⟨text, htext, hlevel⟩ := bind_eq_ok.mp hlevel
        obtain rfl := pure_eq_ok.mp hlevel
        obtain ⟨index, hindex, rfl⟩ := level_eq_ok.mp htext
        obtain ⟨hfile, rfl⟩ := add_note_eq_ok.mp h
        exact ⟨_, .locked mhz index hindex hfile, rfl⟩
      · rintro ⟨q, hq, rfl⟩
        cases hq with
        | locked mhz index hindex hfile =>
            refine ⟨some (decimal index.toNat), ?_, add_note_eq_ok.mpr ⟨hfile, rfl⟩⟩
            rw [levelOf, level_eq_ok.mpr ⟨index, hindex, rfl⟩]
            rfl

theorem planClocks_eq_ok {device : Path} {core memory : Option UInt32} {p p' : AmdPlan} :
    planClocks fs device core memory p = .ok p' ↔
      ∃ q, ClockPlan fs device core memory q ∧ p' = p ++ q := by
  have hlocked (clock : Option UInt32) : clock.any (· ≠ 0) = true ↔ ¬ (clock = none ∨ clock = some 0) := by
    cases clock <;> simp
  unfold planClocks
  by_cases hnone : core = none ∧ memory = none
  · rcases id hnone with ⟨rfl, rfl⟩
    rw [if_pos hnone, pure_eq_ok]
    constructor
    · rintro rfl
      exact ⟨_, .unchanged, (AmdPlan.append_empty p).symm⟩
    · rintro ⟨q, hq, rfl⟩
      cases hq with
      | unchanged => exact (AmdPlan.append_empty p).symm
      | automatic _ _ hsome _ _ _ => simp at hsome
      | locked _ _ _ _ hsome _ _ _ _ _ => exact absurd hnone hsome
  rw [if_neg hnone]
  constructor
  · intro h
    obtain ⟨hmixed, h⟩ := guard_eq_ok.mp h
    rw [hlocked, hlocked, ← not_and_or, not_and, not_not] at hmixed
    split at h
    · rename_i hreset
      obtain ⟨hfile, rfl⟩ := add_note_eq_ok.mp h
      obtain ⟨hcore, hmemory⟩ := hmixed hreset
      exact ⟨_, .automatic core memory hreset hcore hmemory hfile, rfl⟩
    · rename_i hreset
      obtain ⟨sc, hsc, h⟩ := bind_eq_ok.mp h
      obtain ⟨mc, hmc, h⟩ := bind_eq_ok.mp h
      obtain ⟨manual, hmanual, h⟩ := bind_eq_ok.mp h
      obtain ⟨p₁, hp₁, h⟩ := bind_eq_ok.mp h
      obtain ⟨hfile, rfl⟩ := add_eq_ok.mp hmanual
      obtain ⟨q₁, hq₁, rfl⟩ := planLevel_eq_ok.mp ⟨sc, hsc, hp₁⟩
      obtain ⟨q₂, hq₂, rfl⟩ := planLevel_eq_ok.mp ⟨mc, hmc, h⟩
      rw [not_or] at hreset
      exact ⟨_, .locked core memory q₁ q₂ hnone hreset.1 hreset.2 hfile hq₁ hq₂,
        by rw [AmdPlan.append_assoc, AmdPlan.append_assoc]⟩
  · rintro ⟨q, hq, rfl⟩
    cases hq with
    | unchanged => exact absurd ⟨rfl, rfl⟩ hnone
    | automatic _ _ hsome hcore hmemory hfile =>
        refine guard_eq_ok.mpr ⟨?_, ?_⟩
        · rw [hlocked, hlocked, ← not_and_or, not_and, not_not]
          exact fun _ => ⟨hcore, hmemory⟩
        · rw [if_pos hsome]
          exact add_note_eq_ok.mpr ⟨hfile, rfl⟩
    | locked _ _ q₁ q₂ _ hcore hmemory hfile hq₁ hq₂ =>
        have hreset : ¬ (core = some 0 ∨ memory = some 0) := not_or.mpr ⟨hcore, hmemory⟩
        obtain ⟨sc, hsc, h₁⟩ := planLevel_eq_ok.mpr ⟨q₁, hq₁, rfl⟩
        obtain ⟨mc, hmc, h₂⟩ := planLevel_eq_ok.mpr ⟨q₂, hq₂, rfl⟩
        refine guard_eq_ok.mpr ⟨fun h => hreset h.1, ?_⟩
        rw [if_neg hreset, hsc, ok_bind, hmc, ok_bind, add_eq_ok.mpr ⟨hfile, rfl⟩, ok_bind, h₁, ok_bind, h₂,
          AmdPlan.append_assoc, AmdPlan.append_assoc]

/-- The writes of a manual fan, each added on its own. -/
theorem append_manual (p : AmdPlan) (restore enable pwm : AmdWrite) (event : String) :
    ({ p with fanRestore := some restore } : AmdPlan) ++ ({ writes := [enable] } : AmdPlan) ++
        ({ writes := [pwm], events := [event] } : AmdPlan) =
      p ++ ({ writes := [enable, pwm], events := [event], fanRestore := some restore } : AmdPlan) := by
  ext1 <;> simp

theorem planFan_eq_ok {hwmon : Option Path} {fan : UInt32} {p p' : AmdPlan} :
    planFan fs hwmon fan p = .ok p' ↔ ∃ cooling, FanPlan fs hwmon (some fan) cooling ∧ p' = p ++ cooling := by
  constructor
  · intro h
    unfold planFan at h
    split at h
    · cases h
    rename_i hw hhw
    obtain ⟨hpercent, rfl⟩ := Option.ite_none_left_eq_some.mp hhw
    rw [UInt32.not_lt] at hpercent
    split at h
    · rename_i hzero
      subst hzero
      obtain ⟨hfile, rfl⟩ := add_note_eq_ok.mp h
      exact ⟨_, .automatic hw rfl hfile, rfl⟩
    rename_i hzero
    split at h
    · cases h
    rename_i maximum hmaximum
    split at h
    · cases h
    rename_i policy hpolicy
    obtain ⟨enabled, henabled, h⟩ := bind_eq_ok.mp h
    obtain ⟨henable, rfl⟩ := add_eq_ok.mp henabled
    obtain ⟨hpwm, rfl⟩ := add_note_eq_ok.mp h
    obtain ⟨hmaximum, hpositive⟩ := Option.filter_eq_some_iff.mp hmaximum
    obtain ⟨hpolicy, hknown⟩ := Option.filter_eq_some_iff.mp hpolicy
    exact ⟨_, .manual fan hw maximum policy rfl ⟨UInt32.pos_iff_ne_zero.mpr hzero, hpercent⟩ hmaximum
      (of_decide_eq_true hpositive) hpolicy (of_decide_eq_true hknown) henable hpwm, append_manual ..⟩
  · rintro ⟨cooling, hcooling, rfl⟩
    unfold planFan
    cases hcooling with
    | automatic hw hhw hfile =>
        subst hhw
        rw [if_neg (by decide)]
        exact add_note_eq_ok.mpr ⟨hfile, rfl⟩
    | manual _ hw maximum policy hhw hpercent hmaximum hpositive hpolicy hknown henable hpwm =>
        subst hhw
        have hmaximum' : (number fs (child hw "pwm1_max")).filter (· ≠ 0) = some maximum :=
          Option.filter_eq_some_iff.mpr ⟨hmaximum, decide_eq_true hpositive⟩
        have hpolicy' : (number fs (child hw "pwm1_enable")).filter (· ≤ 2) = some policy :=
          Option.filter_eq_some_iff.mpr ⟨hpolicy, decide_eq_true hknown⟩
        rw [if_neg (UInt32.not_lt.mpr hpercent.2)]
        dsimp only
        rw [if_neg (UInt32.pos_iff_ne_zero.mp hpercent.1)]
        simp only [hmaximum', hpolicy']
        rw [add_eq_ok.mpr ⟨henable, rfl⟩, ok_bind, ← append_manual]
        exact add_note_eq_ok.mpr ⟨hpwm, rfl⟩

theorem amdControlPlan_eq_ok {root : Path} {d : GpuInfo} {core memory power fan : Option UInt32}
    {p : AmdPlan} : amdControlPlan fs root d core memory power fan = .ok p ↔
      Planned fs root d core memory power fan p := by
  have hcap (hwmon : Option Path) (q : AmdPlan) :
      whereRequested power (planPower fs hwmon) {} = .ok q ↔ PowerPlan fs hwmon power q := by
    cases power with
    | none =>
        rw [whereRequested, pure_eq_ok]
        constructor
        · rintro rfl
          exact .unchanged
        · rintro ⟨⟩
          rfl
    | some power => simp only [whereRequested, planPower_eq_ok, AmdPlan.empty_append, exists_eq_right']
  have hcooling (hwmon : Option Path) (q : AmdPlan) :
      whereRequested fan (planFan fs hwmon) q = .ok p ↔
        ∃ cooling, FanPlan fs hwmon fan cooling ∧ p = q ++ cooling := by
    cases fan with
    | none =>
        rw [whereRequested, pure_eq_ok]
        constructor
        · rintro rfl
          exact ⟨_, .unchanged, (AmdPlan.append_empty q).symm⟩
        · rintro ⟨cooling, ⟨⟩, rfl⟩
          exact (AmdPlan.append_empty q).symm
    | some fan => exact planFan_eq_ok
  constructor
  · intro h
    unfold amdControlPlan at h
    obtain ⟨hbus, h⟩ := guard_eq_ok.mp h
    obtain ⟨hvendor, h⟩ := guard_eq_ok.mp h
    obtain ⟨hwmon, hhwmon, h⟩ := bind_eq_ok.mp h
    obtain ⟨cap, hpower, h⟩ := bind_eq_ok.mp h
    obtain ⟨q, hq, h⟩ := bind_eq_ok.mp h
    obtain ⟨clocks, hclocks, rfl⟩ := planClocks_eq_ok.mp hq
    obtain ⟨cooling, hfan, rfl⟩ := (hcooling hwmon _).mp h
    rw [AmdPlan.append_assoc]
    exact .settings hwmon cap clocks cooling
      ⟨Bool.of_not_eq_false hbus, not_not.mp hvendor, hhwmon⟩ ((hcap hwmon cap).mp hpower) hclocks hfan
  · rintro ⟨hwmon, cap, clocks, cooling, ⟨hbus, hvendor, hhwmon⟩, hpower, hclocks, hfan⟩
    unfold amdControlPlan
    refine guard_eq_ok.mpr ⟨by rw [hbus]; decide, guard_eq_ok.mpr ⟨not_not.mpr hvendor, ?_⟩⟩
    dsimp only
    rw [hhwmon, ok_bind, (hcap hwmon cap).mpr hpower, ok_bind, planClocks_eq_ok.mpr ⟨clocks, hclocks, rfl⟩,
      ok_bind]
    exact (hcooling hwmon _).mpr ⟨cooling, hfan, (AmdPlan.append_assoc ..).symm⟩

end Supryolo.Hardware
