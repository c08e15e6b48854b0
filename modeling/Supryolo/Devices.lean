import Supryolo.Crypto
import Supryolo.Lib.Loops

/-!
Model of `devices.cpp`, of the enumerations in `blake2b.cu` and `runtime.cpp` it
draws on, and of the choice of devices in `mine`. What a driver answers is data;
the answers are the same each time it is asked. A device is numbered three
times: by its own driver, in the list of OpenCL devices, and in the list the
user sees; only the driver's number opens it.
-/

namespace Supryolo

open Loops

inductive GpuApi
  | cuda
  | opencl
  deriving DecidableEq

structure GpuInfo where
  index : Int
  name : Text
  pciBus : Text
  api : GpuApi := .cuda
  backendIndex : Int := -1
  amd : Bool := false
  deriving DecidableEq

namespace Devices

structure CudaProperties where
  name : Text
  pci : Text

/-- The count is 0 also where there is no device or no sufficient driver. -/
structure CudaRuntime where
  count : Except String Nat
  properties : Nat → Except String CudaProperties

/-- The two answers to a query of a string. -/
structure ClString where
  size : Except String Nat
  content : Except String Text

structure ClPciBus where
  domain : UInt32
  bus : UInt32
  device : UInt32
  function : UInt32

structure AmdPciTopology where
  type : UInt32
  bus : UInt8
  device : UInt8
  function : UInt8

/-- A device with its answers. Flags and the vendor are false and 0 where the
query fails. -/
structure ClDevice where
  handle : Nat
  available : Bool
  compiler : Bool
  little : Bool
  vendor : UInt32
  bus : Option ClPciBus
  topology : Option AmdPciTopology
  name : ClString
  board : ClString
  extensions : ClString

inductive ClPlatform
  | notFound
  | failed (error : String)
  | listed (devices : List ClDevice)

/-- There are no platforms without the library or an installed driver. -/
inductive ClPlatforms
  | absent
  | failed (error : String)
  | listed (platforms : List ClPlatform)

structure Drivers where
  cuda : CudaRuntime
  openCl : ClPlatforms

def cudaDevices (rt : CudaRuntime) : Except String (List GpuInfo) := do
  let n ← rt.count
  (List.range n).mapM fun i => do
    let p ← rt.properties i
    pure { index := i, name := p.name, pciBus := p.pci }

def stringInfo (s : ClString) : Except String Text := do
  let n ← s.size
  if n = 0 ∨ n > 65536 then throw "invalid OpenCL device string"
  let text ← s.content
  pure (if text.getLast? = some '\x00' then text.dropLast else text)

/-- `%0*x` of `snprintf`. -/
def hexPadded (width n : Nat) : Text :=
  List.replicate (width - (Nat.toDigits 16 n).length) '0' ++ Nat.toDigits 16 n

def isAmd (d : ClDevice) : Bool := d.vendor == 0x1002

/-- The buffer that is printed into has 32 bytes. -/
def pciAddress (d : ClDevice) : Text :=
  match d.bus with
  | some b =>
      (hexPadded 4 b.domain.toNat ++ ':' :: hexPadded 2 b.bus.toNat ++ ':' ::
        hexPadded 2 b.device.toNat ++ '.' :: hexPadded 1 b.function.toNat).take 31
  | none =>
      match d.topology with
      | some t =>
          if isAmd d = true ∧ t.type = 1 then
            ("0000:".toList ++ hexPadded 2 t.bus.toNat ++ ':' :: hexPadded 2 t.device.toNat ++
              '.' :: hexPadded 1 t.function.toNat).take 31
          else []
      | none => []

/-- AMD devices are called after their board, where it has a name. -/
def label (d : ClDevice) : Except String Text := do
  let name ← stringInfo d.name
  match isAmd d, stringInfo d.board with
  | true, .ok board =>
      pure (if board ≠ [] then board ++ " (".toList ++ name ++ ")".toList else name)
  | _, _ => pure name

structure Device where
  handle : ClDevice
  info : GpuInfo

/-- `seen` holds the PCI addresses in use. -/
structure Enumeration where
  out : List Device := []
  seen : List Text := []

def enumerateDevice (e : Enumeration) (d : ClDevice) : Except String Enumeration :=
  if (d.available && d.compiler && d.little) = false then pure e
  else if pciAddress d ≠ [] ∧ pciAddress d ∈ e.seen then pure e
  else do
    let name ← label d
    let index : Int := e.out.length
    pure
      { out := e.out ++ [⟨d, ⟨index, name, pciAddress d, .opencl, index, isAmd d⟩⟩]
        seen := if pciAddress d = [] then e.seen else pciAddress d :: e.seen }

def enumeratePlatform (e : Enumeration) : ClPlatform → Except String Enumeration
  | .notFound => pure e
  | .failed error => throw error
  | .listed devices => devices.foldlM enumerateDevice e

def enumerate : ClPlatforms → Except String (List Device)
  | .absent => pure []
  | .failed error => throw error
  | .listed platforms => do
      let e ← platforms.foldlM enumeratePlatform {}
      pure e.out

def openclDevices (cl : ClPlatforms) (amdOnly : Bool) : Except String (List GpuInfo) := do
  let ds ← enumerate cl
  pure ((ds.filter fun d => !amdOnly || d.info.amd).map Device.info)

/-- The devices of another driver go to the end of the list and are numbered
there. -/
def appendDevices (out more : List GpuInfo) : List GpuInfo :=
  more.foldl (fun out d => out ++ [{ d with index := out.length }]) out

def gpuDevices (env : Drivers) (mode : Text) : Except String (List GpuInfo) := do
  if mode ≠ "auto".toList ∧ mode ≠ "cuda".toList ∧ mode ≠ "opencl".toList then
    throw "GPU backend must be auto, cuda or opencl"
  let out ← if mode = "opencl".toList then pure [] else cudaDevices env.cuda
  let out := out.map fun d => { d with backendIndex := d.index }
  if mode = "cuda".toList then pure out
  else do
    let more ← openclDevices env.openCl (mode = "auto".toList && !out.isEmpty)
    pure (appendDevices out more)

/-- What a backend works on. -/
inductive Opened
  | cuda (ordinal : Nat)
  | opencl (handle : ClDevice)

def gpuBlock (d : GpuInfo) (configured : Int) : Int :=
  if configured ≠ 0 then configured
  else match d.api with
    | .cuda => 256
    | .opencl => 64

def cudaBackend (rt : CudaRuntime) (d block variant : Int) : Except String Opened := do
  if block < 32 ∨ block > 1024 ∨ block % 32 ≠ 0 ∨ variant < 0 ∨ variant > 6 then
    throw "invalid CUDA configuration"
  let n ← rt.count
  if d < 0 ∨ d ≥ n then throw "invalid device ordinal"
  let _ ← rt.properties d.toNat
  pure (.cuda d.toNat)

def hasMediaOps (d : ClDevice) : Except String Bool := do
  let extensions ← stringInfo d.extensions
  pure (decide ("cl_amd_media_ops".toList <:+: extensions))

/-- The constructor as far as it chooses the device and the variant for it. -/
def openclBackend (cl : ClPlatforms) (index block variant : Int) : Except String Opened := do
  if variant < -1 ∨ variant > 3 then throw "OpenCL variant must be 0..3"
  if block < 32 ∨ block > 1024 ∨ block % 32 ≠ 0 then throw "invalid OpenCL workgroup size"
  let ds ← enumerate cl
  match if index < 0 then none else ds[index.toNat]? with
  | none => throw "OpenCL device unavailable"
  | some device => do
      let variant ←
        if variant = -1 then
          if device.info.amd then do
            let media ← hasMediaOps device.handle
            pure (if media then 3 else 0)
          else pure 0
        else pure variant
      if variant ≥ 2 then
        let media ← hasMediaOps device.handle
        if media = false then throw "This OpenCL variant requires cl_amd_media_ops"
      pure (.opencl device.handle)

def gpuBackend (env : Drivers) (d : GpuInfo) (block variant openclVariant : Int) :
    Except String Opened :=
  match d.api with
  | .cuda => cudaBackend env.cuda d.backendIndex (gpuBlock d block) variant
  | .opencl => openclBackend env.openCl d.backendIndex (gpuBlock d block) openclVariant

/-- The options that decide which devices mine. -/
structure MineOptions where
  noGpu : Bool := false
  noCpu : Bool := false
  gpuMode : Text := "auto".toList
  devicesExplicit : Bool := false
  devices : List Int := []

def selectDevice (available : List GpuInfo) (id : Int) : Except String GpuInfo :=
  match available.find? fun d => d.index = id with
  | some d => pure d
  | none => throw ("GPU device " ++ toString id ++ " unavailable")

def selectedGpus (env : Drivers) (o : MineOptions) : Except String (List GpuInfo) := do
  let available ← if o.noGpu then pure [] else gpuDevices env o.gpuMode
  let selected ←
    if o.noGpu then pure []
    else if !o.devicesExplicit then pure available
    else o.devices.mapM (selectDevice available)
  if selected.length > 64 then throw "At most 64 GPUs may be selected"
  if selected = [] ∧ o.noCpu = true then
    throw "No enabled GPU devices available; CPU disabled"
  pure selected

end Devices

end Supryolo
