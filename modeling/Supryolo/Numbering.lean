import Supryolo.Devices

namespace Supryolo.Devices

open Loops

/-- Some platform lists the device. -/
def Listed (cl : ClPlatforms) (d : ClDevice) : Prop :=
  ∃ platforms devices, cl = .listed platforms ∧ ClPlatform.listed devices ∈ platforms ∧ d ∈ devices

/-- What the entries of an enumeration say. -/
structure Enumerated (cl : ClPlatforms) (out : List Device) : Prop where
  entry : ∀ (k : Nat) (device : Device), out[k]? = some device → Listed cl device.handle ∧
    ∃ name, label device.handle = .ok name ∧
      device.info = ⟨k, name, pciAddress device.handle, .opencl, k, isAmd device.handle⟩
  distinct : ((out.map fun device => device.info.pciBus).filter (· ≠ [])).Nodup

/-- The addresses of the entries are known while the enumeration goes on. -/
structure Enumerating (cl : ClPlatforms) (e : Enumeration) : Prop extends Enumerated cl e.out where
  seen : ∀ device ∈ e.out, device.info.pciBus ≠ [] → device.info.pciBus ∈ e.seen

theorem enumerating_device {cl : ClPlatforms} {e e' : Enumeration} {d : ClDevice}
    (h : Enumerating cl e) (hlisted : Listed cl d) (hok : enumerateDevice e d = .ok e') :
    Enumerating cl e' := by
  unfold enumerateDevice at hok
  split at hok
  · rwa [← pure_eq_ok.mp hok]
  · split at hok
    · rwa [← pure_eq_ok.mp hok]
    · rename_i hfresh
      rw [not_and_or, not_not] at hfresh
      obtain ⟨name, hname, hok⟩ := bind_eq_ok.mp hok
      obtain rfl := pure_eq_ok.mp hok
      refine ⟨⟨?_, ?_⟩, ?_⟩
      · intro k device hk
        rw [List.getElem?_append] at hk
        split at hk
        · exact h.entry k device hk
        · rename_i hlast
          rw [List.getElem?_singleton] at hk
          split at hk
          · rename_i hzero
            obtain rfl := Option.some.inj hk
            have hposition : e.out.length = k := by omega
            exact ⟨hlisted, name, hname, by rw [hposition]⟩
          · cases hk
      · rw [List.map_append, List.filter_append, List.nodup_append]
        refine ⟨h.distinct, List.Nodup.filter _ (List.nodup_singleton _), ?_⟩
        intro a ha b hb heq
        obtain ⟨hmem, hne⟩ := List.mem_filter.mp ha
        obtain ⟨device, hdevice, rfl⟩ := List.mem_map.mp hmem
        obtain rfl := List.mem_singleton.mp (List.mem_filter.mp hb).1
        rw [decide_eq_true_eq] at hne
        have hknown := h.seen device hdevice hne
        rw [heq] at hne hknown
        rcases hfresh with hempty | hunseen
        · exact hne hempty
        · exact hunseen hknown
      · intro device hdevice hne
        rcases List.mem_append.mp hdevice with hdevice | hdevice
        · have hknown := h.seen device hdevice hne
          dsimp only
          split
          · exact hknown
          · exact List.mem_cons_of_mem _ hknown
        · obtain rfl := List.mem_singleton.mp hdevice
          dsimp only at hne ⊢
          rw [if_neg hne]
          exact List.mem_cons_self

theorem enumerated_of_ok {cl : ClPlatforms} {out : List Device} (h : enumerate cl = .ok out) :
    Enumerated cl out := by
  have hempty : Enumerating cl {} :=
    ⟨⟨fun _ _ hk => (nomatch hk), List.nodup_nil⟩, fun _ hdevice => nomatch hdevice⟩
  cases cl with
  | absent =>
      obtain rfl := pure_eq_ok.mp h
      exact hempty.toEnumerated
  | failed error => cases h
  | listed platforms =>
      obtain ⟨e, he, h⟩ := bind_eq_ok.mp h
      obtain rfl := pure_eq_ok.mp h
      refine (foldlM_invariant_mem (I := Enumerating (.listed platforms)) ?_ hempty he).toEnumerated
      intro e p hp e' h hok
      cases p with
      | notFound => rwa [← pure_eq_ok.mp hok]
      | failed error => cases hok
      | listed devices =>
          refine foldlM_invariant_mem (I := Enumerating (.listed platforms)) ?_ h hok
          intro e d hd e' h hok
          exact enumerating_device h ⟨platforms, devices, rfl, hp, hd⟩ hok

/-- The card that an entry is about, whatever its own number. -/
inductive Describes (env : Drivers) : GpuInfo → Opened → Prop
  | cuda (index : Int) (ordinal n : Nat) (p : CudaProperties) (hcount : env.cuda.count = .ok n)
      (hordinal : ordinal < n) (hp : env.cuda.properties ordinal = .ok p) :
      Describes env ⟨index, p.name, p.pci, .cuda, ordinal, false⟩ (.cuda ordinal)
  | opencl (index : Int) (k : Nat) (ds : List Device) (device : Device) (name : Text)
      (hds : enumerate env.openCl = .ok ds) (hk : ds[k]? = some device)
      (hlisted : Listed env.openCl device.handle) (hname : label device.handle = .ok name)
      (hinfo : device.info =
        ⟨k, name, pciAddress device.handle, .opencl, k, isAmd device.handle⟩) :
      Describes env ⟨index, name, pciAddress device.handle, .opencl, k, isAmd device.handle⟩
        (.opencl device.handle)

theorem cudaDevices_ok {rt : CudaRuntime} {out : List GpuInfo} (h : cudaDevices rt = .ok out) :
    ∃ n, rt.count = .ok n ∧ ∀ i d, out[i]? = some d → i < n ∧
      ∃ p, rt.properties i = .ok p ∧ d = { index := i, name := p.name, pciBus := p.pci } := by
  obtain ⟨n, hcount, h⟩ := bind_eq_ok.mp h
  refine ⟨n, hcount, ?_⟩
  intro i d hd
  have hall := mapM_eq_ok.mp h
  obtain ⟨hlt, rfl⟩ := List.getElem?_eq_some_iff.mp hd
  have hi : i < (List.range n).length := hall.length_eq ▸ hlt
  have hstep := hall.get hi hlt
  simp only [List.get_eq_getElem, List.getElem_range] at hstep
  obtain ⟨p, hp, hd⟩ := bind_eq_ok.mp hstep
  exact ⟨by simpa using hi, p, hp, (pure_eq_ok.mp hd).symm⟩

theorem appendDevices_eq (out more : List GpuInfo) :
    appendDevices out more =
      out ++ more.mapIdx fun i d => { d with index := ((out.length + i : Nat) : Int) } := by
  induction more generalizing out with
  | nil => simp [appendDevices]
  | cons d rest ih =>
      have hstep : appendDevices out (d :: rest) =
          appendDevices (out ++ [{ d with index := out.length }]) rest := rfl
      rw [hstep, ih, List.mapIdx_cons, List.append_assoc, List.singleton_append, Nat.add_zero]
      simp only [List.length_append, List.length_singleton, Nat.add_assoc, Nat.add_comm 1]

/-- The entries that OpenCL adds, with the filter in force. -/
theorem openclDevices_ok {cl : ClPlatforms} {amdOnly : Bool} {more : List GpuInfo}
    (h : openclDevices cl amdOnly = .ok more) :
    ∃ ds, enumerate cl = .ok ds ∧ Enumerated cl ds ∧
      more = (ds.filter fun d => !amdOnly || d.info.amd).map Device.info := by
  obtain ⟨ds, hds, h⟩ := bind_eq_ok.mp h
  exact ⟨ds, hds, enumerated_of_ok hds, (pure_eq_ok.mp h).symm⟩

/-- Its own number does not matter for the card an entry stands for. -/
theorem Describes.renumber {env : Drivers} {d : GpuInfo} {target : Opened}
    (h : Describes env d target) (index : Int) : Describes env { d with index := index } target := by
  cases h with
  | cuda old ordinal n p hcount hordinal hp => exact .cuda index ordinal n p hcount hordinal hp
  | opencl old k ds device name hds hk hlisted hname hinfo =>
      exact .opencl index k ds device name hds hk hlisted hname hinfo

/-- The device list in its two parts. -/
structure Composed (env : Drivers) (cuda more : List GpuInfo) : Prop where
  index : ∀ (i : Nat) (d : GpuInfo), cuda[i]? = some d → d.index = i
  cuda : ∀ d ∈ cuda, d.api = .cuda ∧ ∃ target, Describes env d target
  opencl : ∀ d ∈ more, d.api = .opencl ∧ ∃ target, Describes env d target
  distinct : ((more.map GpuInfo.pciBus).filter (· ≠ [])).Nodup

theorem composed_nil {env : Drivers} {amdOnly : Bool} {cuda : List GpuInfo}
    (h : Composed env cuda []) {more : List GpuInfo}
    (hmore : openclDevices env.openCl amdOnly = .ok more) : Composed env cuda more := by
  obtain ⟨ds, hds, henumerated, rfl⟩ := openclDevices_ok hmore
  refine ⟨h.index, h.cuda, ?_, ?_⟩
  · intro d hd
    obtain ⟨device, hdevice, rfl⟩ := List.mem_map.mp hd
    obtain ⟨k, hk⟩ := List.mem_iff_getElem?.mp (List.mem_filter.mp hdevice).1
    obtain ⟨hlisted, name, hname, hinfo⟩ := henumerated.entry k device hk
    rw [hinfo]
    exact ⟨rfl, _, .opencl k k ds device name hds hk hlisted hname hinfo⟩
  · refine henumerated.distinct.sublist (List.Sublist.filter _ ?_)
    rw [List.map_map]
    exact List.Sublist.map _ List.filter_sublist

/-- The entries of the CUDA devices, which are numbered as their driver does. -/
theorem composed_cuda {env : Drivers} {cuda : List GpuInfo} (h : cudaDevices env.cuda = .ok cuda) :
    Composed env (cuda.map fun d => { d with backendIndex := d.index }) [] := by
  obtain ⟨n, hcount, hall⟩ := cudaDevices_ok h
  have hentry (i : Nat) (d : GpuInfo)
      (hd : (cuda.map fun d => { d with backendIndex := d.index })[i]? = some d) :
      d.index = i ∧ d.api = .cuda ∧ ∃ target, Describes env d target := by
    rw [List.getElem?_map, Option.map_eq_some_iff] at hd
    obtain ⟨old, hold, rfl⟩ := hd
    obtain ⟨hi, p, hp, rfl⟩ := hall i old hold
    exact ⟨rfl, rfl, _, .cuda i i n p hcount hi hp⟩
  refine ⟨fun i d hd => (hentry i d hd).1, ?_, fun d hd => (nomatch hd), List.nodup_nil⟩
  intro d hd
  obtain ⟨i, hi⟩ := List.mem_iff_getElem?.mp hd
  exact (hentry i d hi).2

theorem composed_of_ok {env : Drivers} {mode : Text} {devices : List GpuInfo}
    (h : gpuDevices env mode = .ok devices) :
    ∃ cuda more, devices = appendDevices cuda more ∧ Composed env cuda more := by
  have hrest {cuda : List GpuInfo} (hcuda : Composed env cuda [])
      (h : (if mode = "cuda".toList then pure cuda
        else do
          let more ← openclDevices env.openCl (mode = "auto".toList && !cuda.isEmpty)
          pure (appendDevices cuda more)) = .ok devices) :
      ∃ cuda more, devices = appendDevices cuda more ∧ Composed env cuda more := by
    split at h
    · obtain rfl := pure_eq_ok.mp h
      exact ⟨cuda, [], rfl, hcuda⟩
    · obtain ⟨more, hmore, h⟩ := bind_eq_ok.mp h
      exact ⟨cuda, more, (pure_eq_ok.mp h).symm, composed_nil hcuda hmore⟩
  obtain ⟨-, h⟩ := guard_eq_ok.mp h
  dsimp only at h
  split at h
  · refine hrest ?_ h
    exact ⟨fun _ _ hd => (nomatch hd), fun _ hd => (nomatch hd), fun _ hd => (nomatch hd),
      List.nodup_nil⟩
  · obtain ⟨cuda, hcuda, h⟩ := bind_eq_ok.mp h
    exact hrest (composed_cuda hcuda) h

/-- With any options a backend opens this card or nothing, and with options that
every card accepts it does open it. -/
structure Opens (env : Drivers) (d : GpuInfo) (target : Opened) : Prop where
  only : ∀ block variant openclVariant opened,
    gpuBackend env d block variant openclVariant = .ok opened → opened = target
  opens : gpuBackend env d 0 0 0 = .ok target

private theorem openclBackend_at {cl : ClPlatforms} {ds : List Device} {device : Device} {k : Nat}
    (hds : enumerate cl = .ok ds) (hk : ds[k]? = some device) {block variant : Int}
    {opened : Opened} (h : openclBackend cl k block variant = .ok opened) :
    opened = .opencl device.handle := by
  obtain ⟨-, h⟩ := guard_eq_ok.mp h
  obtain ⟨-, h⟩ := guard_eq_ok.mp h
  rw [hds, ok_bind, if_neg (by omega), Int.toNat_natCast, hk] at h
  have hlast {variant : Int} (h : (if variant ≥ 2 then do
      let media ← hasMediaOps device.handle
      if media = false then throw "This OpenCL variant requires cl_amd_media_ops"
      pure (Opened.opencl device.handle)
    else pure (.opencl device.handle)) = .ok opened) : opened = .opencl device.handle := by
    split at h
    · obtain ⟨media, -, h⟩ := bind_eq_ok.mp h
      obtain ⟨-, h⟩ := guard_eq_ok.mp h
      exact (pure_eq_ok.mp h).symm
    · exact (pure_eq_ok.mp h).symm
  dsimp only at h
  split at h
  · split at h
    · obtain ⟨media, -, h⟩ := bind_eq_ok.mp h
      exact hlast h
    · obtain ⟨chosen, -, h⟩ := bind_eq_ok.mp h
      exact hlast h
  · obtain ⟨chosen, -, h⟩ := bind_eq_ok.mp h
    exact hlast h

theorem Describes.opens {env : Drivers} {d : GpuInfo} {target : Opened}
    (h : Describes env d target) : Opens env d target := by
  cases h with
  | cuda index ordinal n p hcount hordinal hp =>
      refine ⟨?_, ?_⟩
      · intro block variant openclVariant opened hok
        obtain ⟨-, hok⟩ := guard_eq_ok.mp hok
        obtain ⟨n', -, hok⟩ := bind_eq_ok.mp hok
        obtain ⟨-, hok⟩ := guard_eq_ok.mp hok
        obtain ⟨p', -, hok⟩ := bind_eq_ok.mp hok
        exact (pure_eq_ok.mp hok).symm
      · have hrange : ¬ ((ordinal : Int) < 0 ∨ (ordinal : Int) ≥ n) := by omega
        change cudaBackend env.cuda ordinal 256 0 = _
        rw [cudaBackend, if_neg (by decide), hcount, ok_bind, if_neg hrange, Int.toNat_natCast, hp]
        rfl
  | opencl index k ds device name hds hk hlisted hname hinfo =>
      refine ⟨?_, ?_⟩
      · intro block variant openclVariant opened hok
        exact openclBackend_at hds hk hok
      · change openclBackend env.openCl k 64 0 = _
        rw [openclBackend, if_neg (by decide), if_neg (by decide), hds, ok_bind, if_neg (by omega),
          Int.toNat_natCast, hk]
        rfl

/-- The entry that an id names. -/
def named (devices : List GpuInfo) (id : Int) : Option GpuInfo :=
  if id < 0 then none else devices[id.toNat]?

/-- What the numbers in a device list stand for. -/
structure Numbered (env : Drivers) (devices : List GpuInfo) : Prop where
  position : ∀ (i : Nat) (d : GpuInfo), devices[i]? = some d → d.index = i
  opens : ∀ d ∈ devices, ∃ target, Describes env d target ∧ Opens env d target
  distinct : (((devices.filter fun d => d.api = .opencl).map GpuInfo.pciBus).filter (· ≠ [])).Nodup

theorem Composed.numbered {env : Drivers} {cuda more : List GpuInfo}
    (h : Composed env cuda more) : Numbered env (appendDevices cuda more) := by
  rw [appendDevices_eq]
  refine ⟨?_, ?_, ?_⟩
  · intro i d hd
    rw [List.getElem?_append] at hd
    split at hd
    · exact h.index i d hd
    · rename_i hge
      rw [List.getElem?_mapIdx, Option.map_eq_some_iff] at hd
      obtain ⟨old, -, rfl⟩ := hd
      dsimp only
      omega
  · intro d hd
    have hdescribed : ∃ target, Describes env d target := by
      rcases List.mem_append.mp hd with hd | hd
      · exact (h.cuda d hd).2
      · obtain ⟨i, hi, rfl⟩ := List.mem_mapIdx.mp hd
        obtain ⟨-, target, htarget⟩ := h.opencl _ (List.getElem_mem hi)
        exact ⟨target, htarget.renumber _⟩
    obtain ⟨target, htarget⟩ := hdescribed
    exact ⟨target, htarget, htarget.opens⟩
  · have hcuda : cuda.filter (fun d => decide (d.api = .opencl)) = [] := by
      rw [List.filter_eq_nil_iff]
      intro d hd
      rw [(h.cuda d hd).1]
      decide
    have hpci : ((more.mapIdx fun i d => { d with index := ((cuda.length + i : Nat) : Int) }).map
        GpuInfo.pciBus) = more.map GpuInfo.pciBus := by
      refine List.ext_getElem? fun i => ?_
      rw [List.getElem?_map, List.getElem?_map, List.getElem?_mapIdx, Option.map_map]
      rfl
    rw [List.filter_append, hcuda, List.nil_append]
    refine h.distinct.sublist (List.Sublist.filter _ ?_)
    rw [← hpci]
    exact List.Sublist.map _ List.filter_sublist

theorem find_index {env : Drivers} {devices : List GpuInfo} (h : Numbered env devices) (id : Int) :
    devices.find? (fun d => d.index = id) = named devices id := by
  cases hnamed : named devices id with
  | none =>
      rw [List.find?_eq_none]
      intro d hd
      obtain ⟨i, hi⟩ := List.mem_iff_getElem?.mp hd
      rw [decide_eq_true_eq, h.position i d hi]
      rintro rfl
      rw [named, if_neg (by omega), Int.toNat_natCast, hi] at hnamed
      cases hnamed
  | some d =>
      unfold named at hnamed
      split at hnamed
      · cases hnamed
      · obtain ⟨hlt, hget⟩ := List.getElem?_eq_some_iff.mp hnamed
        have hposition := h.position id.toNat d hnamed
        rw [List.find?_eq_some_iff_getElem]
        refine ⟨?_, id.toNat, hlt, hget, ?_⟩
        · rw [decide_eq_true_eq]
          omega
        · intro j hj
          have hearlier := h.position j devices[j] (List.getElem?_eq_getElem _)
          simp only [Bool.not_eq_true', decide_eq_false_iff_not]
          omega

theorem selectDevice_ok {env : Drivers} {devices : List GpuInfo} (h : Numbered env devices) {id : Int}
    {d : GpuInfo} : selectDevice devices id = .ok d ↔ named devices id = some d := by
  rw [selectDevice, find_index h]
  cases named devices id with
  | none => exact ⟨fun hok => (nomatch hok), fun hsome => (nomatch hsome)⟩
  | some found => exact pure_eq_ok.trans ⟨congrArg some, Option.some.inj⟩

/-- Explicit ids choose the entries they name, in their order. -/
theorem selectedGpus_explicit {env : Drivers} {o : MineOptions} {devices selected : List GpuInfo}
    (hdevices : gpuDevices env o.gpuMode = .ok devices) (h : Numbered env devices)
    (hgpu : o.noGpu = false) (hexplicit : o.devicesExplicit = true) :
    selectedGpus env o = .ok selected ↔ selected.map some = o.devices.map (named devices) ∧
      selected.length ≤ 64 ∧ (selected = [] → o.noCpu = false) := by
  have hmap : o.devices.mapM (selectDevice devices) = .ok selected ↔
      selected.map some = o.devices.map (named devices) := by
    rw [mapM_eq_ok, eq_comm, ← List.forall₂_eq_eq_eq, List.forall₂_map_left_iff,
      List.forall₂_map_right_iff]
    simp only [selectDevice_ok h]
  simp only [selectedGpus, hgpu, hexplicit, hdevices, Bool.false_eq_true, if_false, Bool.not_true,
    ok_bind]
  rw [← hmap, bind_eq_ok]
  constructor
  · rintro ⟨chosen, hchosen, hok⟩
    obtain ⟨hsize, hok⟩ := guard_eq_ok.mp hok
    obtain ⟨hsome, hok⟩ := guard_eq_ok.mp hok
    obtain rfl := pure_eq_ok.mp hok
    refine ⟨hchosen, Nat.not_lt.mp hsize, fun hempty => ?_⟩
    rw [not_and, Bool.not_eq_true] at hsome
    exact hsome hempty
  · rintro ⟨hchosen, hsize, hsome⟩
    refine ⟨selected, hchosen, guard_eq_ok.mpr ⟨Nat.not_lt.mpr hsize, guard_eq_ok.mpr ⟨?_, rfl⟩⟩⟩
    rintro ⟨hempty, hcpu⟩
    rw [hsome hempty] at hcpu
    cases hcpu

/-- Every entry of the device list has its position as its number, and opening it
opens the one card it describes, through the filter for AMD cards and the
renumbering behind the CUDA devices; no PCI address occurs twice among the OpenCL
entries, and explicit ids choose exactly the entries they name. -/
theorem device_numbering {env : Drivers} {mode : Text} {devices : List GpuInfo}
    (h : gpuDevices env mode = .ok devices) :
    Numbered env devices ∧ ∀ o selected, o.gpuMode = mode → o.noGpu = false →
      o.devicesExplicit = true →
      (selectedGpus env o = .ok selected ↔ selected.map some = o.devices.map (named devices) ∧
        selected.length ≤ 64 ∧ (selected = [] → o.noCpu = false)) := by
  obtain ⟨cuda, more, rfl, hcomposed⟩ := composed_of_ok h
  refine ⟨hcomposed.numbered, ?_⟩
  rintro o selected rfl hgpu hexplicit
  exact selectedGpus_explicit h hcomposed.numbered hgpu hexplicit

def sampleString (text : Text) : ClString := ⟨.ok text.length, .ok text⟩

/-- An OpenCL device on bus `bus`. -/
def sampleDevice (handle : Nat) (vendor bus : UInt32) : ClDevice :=
  { handle := handle, available := true, compiler := true, little := true, vendor := vendor
    bus := some ⟨0, bus, 0, 0⟩, topology := none, name := sampleString "card".toList
    board := ⟨.error "unknown", .ok []⟩, extensions := sampleString "none".toList }

/-- One CUDA card; OpenCL sees it as well, and two platforms show one AMD card. -/
def sampleDrivers : Drivers where
  cuda := ⟨.ok 1, fun _ => .ok ⟨"card".toList, "0000:01:00.0".toList⟩⟩
  openCl := .listed [.listed [sampleDevice 1 0x10de 1, sampleDevice 2 0x1002 2],
    .listed [sampleDevice 3 0x1002 2]]

/-- The AMD card is second in the list and in the enumeration alike. -/
theorem device_numbering_sample : ∃ devices,
    gpuDevices sampleDrivers "auto".toList = .ok devices ∧ devices.length = 2 ∧
      Numbered sampleDrivers devices := by
  have hok : gpuDevices sampleDrivers "auto".toList = .ok
      [⟨0, "card".toList, "0000:01:00.0".toList, .cuda, 0, false⟩,
        ⟨1, "card".toList, "0000:02:00.0".toList, .opencl, 1, true⟩] := by decide +kernel
  exact ⟨_, hok, rfl, (device_numbering hok).1⟩

end Supryolo.Devices
