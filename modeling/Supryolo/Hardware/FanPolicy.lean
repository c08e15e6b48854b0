import Supryolo.Hardware.Plans

namespace Supryolo.Hardware

open Journal Effects

section

variable {ω : Type} {outcome : Outcomes} {file : AmdWrite → ω} {p : AmdPlan}

/-- A write takes back what another one changed. -/
def Restores (restore : Option AmdWrite) (w : AmdWrite) : Prop := ∃ r, restore = some r ∧ w.path = r.path

/-- What is reported of a write that is refused. -/
def refusal (w : AmdWrite) (reason : String) : String :=
  "AMD write failed for " ++ fileName w.path ++ ": " ++ reason

/-- What is attempted, and reported, when a write fails after `n` attempts of
other plans. -/
inductive AmdStopped (outcome : Outcomes) (file : AmdWrite → ω) (p : AmdPlan) (n : Nat) :
    String → Log ω → Prop
  | failed (first : List AmdWrite) (w : AmdWrite) (rest : List AmdWrite) (reason : String)
      (hwrites : p.writes = first ++ w :: rest) (hreason : outcome (n + first.length) = some reason)
      (hkept : ∀ v ∈ first, ¬ Restores p.fanRestore v) :
      AmdStopped outcome file p n (refusal w reason) (done (first.map file) ++ [(file w, false)])
  | restored (first : List AmdWrite) (w : AmdWrite) (rest : List AmdWrite) (r : AmdWrite)
      (reason : String) (hwrites : p.writes = first ++ w :: rest) (hrestore : p.fanRestore = some r)
      (hreason : outcome (n + first.length) = some reason)
      (htaken : outcome (n + first.length + 1) = none)
      (hchanged : ∃ v ∈ first, Restores p.fanRestore v) :
      AmdStopped outcome file p n (refusal w reason)
        (done (first.map file) ++ [(file w, false), (file r, true)])
  | stranded (first : List AmdWrite) (w : AmdWrite) (rest : List AmdWrite) (r : AmdWrite)
      (reason later : String) (hwrites : p.writes = first ++ w :: rest)
      (hrestore : p.fanRestore = some r) (hreason : outcome (n + first.length) = some reason)
      (hlater : outcome (n + first.length + 1) = some later)
      (hchanged : ∃ v ∈ first, Restores p.fanRestore v) :
      AmdStopped outcome file p n
        (refusal w reason ++ "; previous fan policy could not be restored: " ++ refusal r later)
        (done (first.map file) ++ [(file w, false), (file r, false)])

theorem amdWrites_ends (restore : Option AmdWrite) (ws : List AmdWrite) (changed : Bool) (log : Log ω) :
    Ends (amdWrites outcome file restore ws changed)
      (fun result log' =>
        result.1 = none ∧ log' = log ++ done (ws.map file) ∨
          ∃ first w rest reason, ws = first ++ w :: rest ∧ result.1 = some (refusal w reason) ∧
            outcome (log.length + first.length) = some reason ∧
            (result.2 = true ↔ changed = true ∨ ∃ v ∈ first, Restores restore v) ∧
            log' = log ++ (done (first.map file) ++ [(file w, false)]))
      (fun _ _ => False) log := by
  induction ws generalizing changed log with
  | nil => exact Or.inl ⟨rfl, (List.append_nil log).symm⟩
  | cons w rest ih =>
      unfold amdWrites
      rw [ends_bind, ends_tryCatch, ends_bind]
      refine ends_attempt (fun _ => ?_) fun reason hreason => ?_
      · refine (ih _ _).mono ?_ fun _ _ h => h
        rintro result log' (⟨hnone, rfl⟩ | ⟨first, w', later, reason, rfl, he, hreason, hchanged, rfl⟩)
        · exact Or.inl ⟨hnone, by simp [done]⟩
        · refine Or.inr ⟨w :: first, w', later, reason, rfl, he, ?_, ?_, by simp [done]⟩
          · rw [← hreason, List.length_append, List.length_singleton, List.length_cons]
            congr 1
            omega
          · rw [hchanged]
            cases restore with
            | none => simp [Restores]
            | some r => simp [Restores, or_assoc]
      · exact Or.inr ⟨[], w, rest, reason, rfl, rfl, hreason, by simp, rfl⟩

theorem amdApply_ends (p : AmdPlan) (log : Log ω) :
    Ends (amdApply outcome file p) (fun _ log' => log' = log ++ done (p.writes.map file))
      (fun e log' => ∃ tail, AmdStopped outcome file p log.length e tail ∧ log' = log ++ tail) log := by
  rw [amdApply, ends_bind]
  refine (amdWrites_ends p.fanRestore p.writes false log).mono ?_ fun _ _ h => h.elim
  rintro ⟨failed, changed⟩ log'
    (⟨rfl, rfl⟩ | ⟨first, w, rest, reason, hwrites, rfl, hreason, hchanged, rfl⟩)
  · rfl
  · cases hrestore : p.fanRestore with
    | none =>
        refine ⟨_, .failed first w rest reason hwrites hreason ?_, rfl⟩
        rintro v - ⟨r, hr, -⟩
        rw [hrestore] at hr
        cases hr
    | some r =>
        cases changed with
        | false =>
            refine ⟨_, .failed first w rest reason hwrites hreason ?_, rfl⟩
            intro v hv hr
            exact absurd (hchanged.mpr (Or.inr ⟨v, hv, hr⟩)) Bool.false_ne_true
        | true =>
            have hfirst : ∃ v ∈ first, Restores p.fanRestore v := by
              rcases hchanged.mp rfl with h | h
              · exact absurd h Bool.false_ne_true
              · exact h
            have hlength : (log ++ (done (first.map file) ++ [(file w, false)])).length =
                log.length + first.length + 1 := by
              simp [Nat.add_assoc]
            dsimp only
            rw [ends_bind, ends_tryCatch]
            refine ends_attempt (fun htaken => ?_) fun later hlater => ?_
            · rw [hlength] at htaken
              exact ⟨_, .restored first w rest r reason hwrites hrestore hreason htaken hfirst, by simp⟩
            · rw [hlength] at hlater
              exact ⟨_, .stranded first w rest r reason later hwrites hrestore hreason hlater hfirst,
                by simp⟩

end

/-- The content of a file after some attempts. -/
def contentAfter (fs : Sysfs) (log : Log AmdWrite) (path : Path) : Option Text :=
  log.foldl
    (fun content entry =>
      if entry.2 = true ∧ entry.1.path = path then some (entry.1.value ++ ['\n']) else content)
    (fs.content path)

variable {fs : Sysfs}

theorem contentAfter_snoc (log : Log AmdWrite) (w : AmdWrite) (taken : Bool) (path : Path) :
    contentAfter fs (log ++ [(w, taken)]) path =
      if taken = true ∧ w.path = path then some (w.value ++ ['\n']) else contentAfter fs log path := by
  rw [contentAfter, List.foldl_append]
  rfl

theorem contentAfter_refused (log : Log AmdWrite) (w : AmdWrite) (path : Path) :
    contentAfter fs (log ++ [(w, false)]) path = contentAfter fs log path := by
  rw [contentAfter_snoc, if_neg]
  exact fun h => absurd h.1 Bool.false_ne_true

theorem contentAfter_done {ws : List AmdWrite} {path : Path} (h : ∀ w ∈ ws, w.path ≠ path) :
    contentAfter fs (done ws) path = fs.content path := by
  induction ws using List.reverseRecOn with
  | nil => rfl
  | append_singleton ws w ih =>
      rw [done_append]
      rw [List.forall_mem_append] at h
      refine (contentAfter_snoc (done ws) w true path).trans ?_
      rw [if_neg (fun hw => h.2 w List.mem_cons_self hw.2), ih h.1]

def IsPolicy (path : Path) : Prop := path.getLast? = some "pwm1_enable".toList

theorem getLast?_child (directory : Path) (name : String) :
    (child directory name).getLast? = some name.toList := by
  rw [child, List.getLast?_concat]

theorem isPolicy_child {directory : Path} {name : String} :
    IsPolicy (child directory name) ↔ name = "pwm1_enable" := by
  rw [IsPolicy, getLast?_child, Option.some_inj, String.toList_inj]

/-- A contribution without a write to the policy. -/
def LeavesFan (p : AmdPlan) : Prop := p.fanRestore = none ∧ ∀ w ∈ p.writes, ¬ IsPolicy w.path

theorem PowerPlan.leavesFan {hwmon : Option Path} {power : Option UInt32} {p : AmdPlan}
    (h : PowerPlan fs hwmon power p) : LeavesFan p := by
  cases h with
  | unchanged => simp [LeavesFan]
  | cap => simp [LeavesFan, isPolicy_child]

theorem ClockPlan.leavesFan {device : Path} {core memory : Option UInt32} {p : AmdPlan}
    (h : ClockPlan fs device core memory p) : LeavesFan p := by
  cases h with
  | unchanged => simp [LeavesFan]
  | automatic => simp [LeavesFan, isPolicy_child]
  | locked _ _ sc mc _ _ _ _ hsc hmc =>
      cases hsc <;> cases hmc <;> simp [LeavesFan, isPolicy_child]

theorem LeavesFan.append {p q : AmdPlan} (hp : LeavesFan p) (hq : LeavesFan q) : LeavesFan (p ++ q) := by
  refine ⟨?_, List.forall_mem_append.mpr ⟨hp.2, hq.2⟩⟩
  rw [AmdPlan.fanRestore_append, hp.1, hq.1]
  rfl

/-- The other settings come first and leave the fan alone. -/
theorem Planned.split {root : Path} {d : GpuInfo} {core memory power fan : Option UInt32}
    {p : AmdPlan} (h : Planned fs root d core memory power fan p) :
    ∃ hwmon others cooling, LeavesFan others ∧ FanPlan fs hwmon fan cooling ∧ p = others ++ cooling := by
  cases h with
  | settings hwmon cap clocks cooling hlocated hcap hclocks hcooling =>
      exact ⟨hwmon, cap ++ clocks, cooling, hcap.leavesFan.append hclocks.leavesFan, hcooling,
        (AmdPlan.append_assoc ..).symm⟩

/-- The write that restores the policy writes the number that is there. -/
theorem Planned.restore_policy {root : Path} {d : GpuInfo} {core memory power fan : Option UInt32}
    {p : AmdPlan} (h : Planned fs root d core memory power fan p) {r : AmdWrite}
    (hr : p.fanRestore = some r) :
    ∃ policy : UInt64, r.value = decimal policy.toNat ∧ number fs r.path = some policy := by
  obtain ⟨hwmon, others, cooling, hothers, hcooling, rfl⟩ := h.split
  rw [AmdPlan.fanRestore_append, hothers.1, Option.or_none] at hr
  cases hcooling with
  | unchanged => cases hr
  | automatic => cases hr
  | manual _ hw _ policy _ _ _ _ hpolicy =>
      cases hr
      exact ⟨policy, rfl, hpolicy⟩

/-- The policy is written before another write only where it can be restored. -/
theorem Planned.policy_last {root : Path} {d : GpuInfo} {core memory power fan : Option UInt32}
    {p : AmdPlan} (h : Planned fs root d core memory power fan p) {first rest : List AmdWrite}
    {w : AmdWrite} (hwrites : p.writes = first ++ w :: rest) :
    ∀ v ∈ first, IsPolicy v.path → Restores p.fanRestore v := by
  obtain ⟨hwmon, others, cooling, hothers, hcooling, rfl⟩ := h.split
  intro v hv hpolicy
  have hlast : v ∈ (others ++ cooling).writes.dropLast := by
    rw [hwrites, List.dropLast_append_cons]
    exact List.mem_append_left _ hv
  rw [AmdPlan.writes_append] at hlast
  cases hcooling with
  | unchanged =>
      rw [List.append_nil] at hlast
      exact absurd hpolicy (hothers.2 v (List.mem_of_mem_dropLast hlast))
  | automatic =>
      rw [List.dropLast_concat] at hlast
      exact absurd hpolicy (hothers.2 v hlast)
  | manual =>
      rw [List.dropLast_append_cons, List.mem_append] at hlast
      rcases hlast with hlast | hlast
      · exact absurd hpolicy (hothers.2 v hlast)
      · rw [List.dropLast_cons_cons, List.dropLast_singleton, List.mem_singleton] at hlast
        rw [hlast]
        exact ⟨_, rfl, rfl⟩

/-- A run of AMD controls never leaves the fan in manual mode unnoticed, whichever
of its writes fail. Where it throws, every fan policy is as it was when the plan was
made, or the error says that it could not be restored; where it returns, all planned
writes have taken effect in order. -/
theorem fan_policy_restored (fs : Sysfs) (root : Path) (d : GpuInfo)
    (core memory power fan : Option UInt32) (p : AmdPlan)
    (hplan : amdControlPlan fs root d core memory power fan = .ok p) (outcome : Outcomes) :
    Ends (amdApply outcome id p) (fun _ log => log = done p.writes)
      (fun e log =>
        (∀ path, IsPolicy path → contentAfter fs log path >>= parseNumber = number fs path) ∨
          ∃ failure reason, e = failure ++ "; previous fan policy could not be restored: " ++ reason)
      [] := by
  have hplanned := amdControlPlan_eq_ok.mp hplan
  refine (amdApply_ends p []).mono ?_ ?_
  · rintro _ log rfl
    rw [List.map_id, List.nil_append]
  rintro e _ ⟨log, hstopped, rfl⟩
  cases hstopped with
  | failed first w rest reason hwrites hreason hkept =>
      refine Or.inl fun path hpath => ?_
      rw [List.map_id, id, contentAfter_refused, contentAfter_done]
      · rfl
      · rintro v hv rfl
        exact hkept v hv (hplanned.policy_last hwrites v hv hpath)
  | restored first w rest r reason hwrites hrestore hreason htaken hchanged =>
      refine Or.inl fun path hpath => ?_
      have hlog : done (first.map id) ++ [(id w, false), (id r, true)] =
          done first ++ [(w, false)] ++ [(r, true)] := by
        rw [List.map_id, List.append_assoc]
        rfl
      obtain ⟨policy, hvalue, hpolicy⟩ := hplanned.restore_policy hrestore
      rw [hlog, contentAfter_snoc]
      by_cases hr : r.path = path
      · rw [if_pos ⟨rfl, hr⟩, hvalue, ← hr, hpolicy]
        exact parseNumber_decimal policy
      · rw [if_neg (fun h => hr h.2), contentAfter_refused, contentAfter_done]
        · rfl
        · rintro v hv rfl
          obtain ⟨r', hr', hpath'⟩ := hplanned.policy_last hwrites v hv hpath
          rw [hrestore] at hr'
          cases hr'
          exact hr hpath'.symm
  | stranded first w rest r reason later => exact Or.inr ⟨refusal w reason, refusal r later, rfl⟩

/-- A device directory with the files of a fan. -/
def sampleDirectory : Path := pciDevices ++ ["0000:03:00.0".toList]

def sampleHwmon : Path := child sampleDirectory "hwmon" ++ ["hwmon42".toList]

def sampleFiles : List (Path × Text) :=
  [(child sampleDirectory "vendor", "0x1002".toList), (child sampleHwmon "name", "amdgpu".toList),
    (child sampleHwmon "pwm1", "128".toList), (child sampleHwmon "pwm1_max", "255".toList),
    (child sampleHwmon "pwm1_enable", "2".toList)]

def sampleSysfs : Sysfs where
  content p := sampleFiles.lookup p
  entries _ := [.ok "hwmon42".toList]
  present p := .ok (sampleFiles.lookup p).isSome

def sampleGpu : GpuInfo := ⟨0, "card".toList, "0000:03:00.0".toList, .opencl, 0, true⟩

def samplePlan : AmdPlan where
  writes := [⟨child sampleHwmon "pwm1_enable", "1".toList⟩, ⟨child sampleHwmon "pwm1", "128".toList⟩]
  events := ["fan 50% applied"]
  fanRestore := some ⟨child sampleHwmon "pwm1_enable", "2".toList⟩

/-- Only the second write is refused. -/
def refusePwm : Outcomes := fun attempt => if attempt = 1 then some "Is a directory" else none

/-- The policy is manual when the PWM write fails, and 2 in the end. -/
theorem fan_policy_restored_sample :
    ∃ e log, amdApply refusePwm id samplePlan [] = .error e log ∧
      (contentAfter sampleSysfs log (child sampleHwmon "pwm1_enable") >>= parseNumber = some 2 ∨
        ∃ failure reason, e = failure ++ "; previous fan policy could not be restored: " ++ reason) := by
  have hplan : amdControlPlan sampleSysfs pciDevices sampleGpu none none none (some 50) =
      .ok samplePlan := by decide +kernel
  have hpolicy : number sampleSysfs (child sampleHwmon "pwm1_enable") = some 2 := by decide +kernel
  refine ⟨_, _, rfl, ?_⟩
  have hends := (fan_policy_restored _ _ _ _ _ _ _ _ hplan refusePwm).error rfl
  exact hends.imp (fun h => (h _ (isPolicy_child.mpr rfl)).trans hpolicy) id

end Supryolo.Hardware
