import Supryolo.Wire

namespace Supryolo.Sv2

open Words Readers Loops

inductive Request
  | setup (protocol : UInt8) (minVersion maxVersion : UInt16) (flags : UInt32) (host : Text)
      (port : UInt16) (vendor hardware firmware device : Text)
  | openStandard (request : UInt32) (user : Text) (rate : UInt32) (maxTarget : Hash)
  | submitStandard (channel sequence job nonce ntime version : UInt32)
  deriving DecidableEq

namespace Request

def type : Request → UInt8
  | .setup _ _ _ _ _ _ _ _ _ _ => 0
  | .openStandard _ _ _ _ => 0x10
  | .submitStandard _ _ _ _ _ _ => 0x1a

def payload : Request → Bytes
  | .setup protocol minVersion maxVersion flags host port vendor hardware firmware device =>
      leBytes 1 protocol.toUInt64 ++ leBytes 2 minVersion.toUInt64 ++
        leBytes 2 maxVersion.toUInt64 ++ wordBytes flags ++ shortString (textBytes host) ++
        leBytes 2 port.toUInt64 ++ shortString (textBytes vendor) ++
        shortString (textBytes hardware) ++ shortString (textBytes firmware) ++
        shortString (textBytes device)
  | .openStandard request user rate maxTarget =>
      wordBytes request ++ shortString (textBytes user) ++ wordBytes rate ++ targetBytes maxTarget
  | .submitStandard channel sequence job nonce ntime version =>
      wordBytes channel ++ wordBytes sequence ++ wordBytes job ++ wordBytes nonce ++
        wordBytes ntime ++ wordBytes version

def frame (r : Request) : Frame := ⟨extensionOf r.type, r.type, r.payload⟩

def WellFormed : Request → Prop
  | .setup _ _ _ _ host _ vendor hardware firmware device =>
      IsString host ∧ IsString vendor ∧ IsString hardware ∧ IsString firmware ∧ IsString device
  | .openStandard _ user _ maxTarget => IsString user ∧ maxTarget ≠ Vector.replicate 32 0
  | .submitStandard _ _ _ _ _ _ => True

end Request

namespace Reader

def u8 : Reader UInt8 := do pure (← integer 1).toUInt8

def u16 : Reader UInt16 := do pure (← integer 2).toUInt16

end Reader

open Reader in
/-- The request a payload of the given type spells. -/
def requestPayload (type : UInt8) : Reader Request :=
  match type.toNat with
  | 0 => do
      let protocol ← u8
      let minVersion ← u16
      let maxVersion ← u16
      let flags ← u32
      let host ← string
      let port ← u16
      let vendor ← string
      let hardware ← string
      let firmware ← string
      pure (.setup protocol minVersion maxVersion flags host port vendor hardware firmware
        (← string))
  | 0x10 => do
      let request ← u32
      let user ← string
      let rate ← u32
      pure (.openStandard request user rate (← targetHash))
  | 0x1a => do
      let channel ← u32
      let sequence ← u32
      let job ← u32
      let nonce ← u32
      let ntime ← u32
      pure (.submitStandard channel sequence job nonce ntime (← u32))
  | _ => throw "unknown request"

def readRequest (f : Frame) : Except String Request :=
  if f.extension ≠ extensionOf f.type then throw "unexpected extension"
  else do
    let (value, rest) ← (requestPayload f.type).run f.payload
    let _ ← Reader.finish.run rest
    pure value

theorem spells_u8 : Spells Reader.u8 (fun x => leBytes 1 x.toUInt64) fun _ => True := by
  intro input x rest
  unfold Reader.u8
  rw [(spells_integer (by decide)).bind]
  simp only [run_pure_iff]
  constructor
  · rintro ⟨word, left, ⟨hlt, rfl⟩, rfl, rfl⟩
    have hword : word.toUInt8.toUInt64 = word := by
      apply UInt64.toNat_inj.mp
      rw [UInt8.toNat_toUInt64, UInt64.toNat_toUInt8]
      exact Nat.mod_eq_of_lt hlt
    rw [hword]
    exact ⟨trivial, rfl⟩
  · rintro ⟨-, rfl⟩
    refine ⟨x.toUInt64, rest, ⟨?_, rfl⟩, UInt8.toUInt8_toUInt64 x, rfl⟩
    rw [UInt8.toNat_toUInt64]
    exact x.toNat_lt

theorem spells_u16 : Spells Reader.u16 (fun x => leBytes 2 x.toUInt64) fun _ => True := by
  intro input x rest
  unfold Reader.u16
  rw [(spells_integer (by decide)).bind]
  simp only [run_pure_iff]
  constructor
  · rintro ⟨word, left, ⟨hlt, rfl⟩, rfl, rfl⟩
    have hword : word.toUInt16.toUInt64 = word := by
      apply UInt64.toNat_inj.mp
      rw [UInt16.toNat_toUInt64, UInt64.toNat_toUInt16]
      exact Nat.mod_eq_of_lt hlt
    rw [hword]
    exact ⟨trivial, rfl⟩
  · rintro ⟨-, rfl⟩
    refine ⟨x.toUInt64, rest, ⟨?_, rfl⟩, UInt16.toUInt16_toUInt64 x, rfl⟩
    rw [UInt16.toNat_toUInt64]
    exact x.toNat_lt

/-- The payloads of one type are read exactly as the requests of that type are
written. -/
def ReadsRequest (type : UInt8) : Prop :=
  Spells (requestPayload type) Request.payload fun r => r.type = type ∧ r.WellFormed

theorem reads_setup : ReadsRequest 0 := by
  intro b r rest
  change (do
    let protocol ← Reader.u8
    let minVersion ← Reader.u16
    let maxVersion ← Reader.u16
    let flags ← Reader.u32
    let host ← Reader.string
    let port ← Reader.u16
    let vendor ← Reader.string
    let hardware ← Reader.string
    let firmware ← Reader.string
    pure (.setup protocol minVersion maxVersion flags host port vendor hardware firmware
      (← Reader.string)) : Reader Request).run b = _ ↔ _
  simp only [spells_u8.bind, spells_u16.bind, spells_u32.bind, spells_string.bind, run_pure_iff,
    true_and]
  constructor
  · rintro ⟨protocol, _, rfl, minVersion, _, rfl, maxVersion, _, rfl, flags, _, rfl, host, _,
      ⟨hhost, rfl⟩, port, _, rfl, vendor, _, ⟨hvendor, rfl⟩, hardware, _, ⟨hhardware, rfl⟩,
      firmware, _, ⟨hfirmware, rfl⟩, device, _, ⟨hdevice, rfl⟩, rfl, rfl⟩
    refine ⟨⟨rfl, hhost, hvendor, hhardware, hfirmware, hdevice⟩, ?_⟩
    simp only [Request.payload, List.append_assoc]
  · rintro ⟨⟨htype, hlegal⟩, rfl⟩
    cases r with
    | setup protocol minVersion maxVersion flags host port vendor hardware firmware device =>
        obtain ⟨hhost, hvendor, hhardware, hfirmware, hdevice⟩ := hlegal
        refine ⟨protocol, _, ?_, minVersion, _, rfl, maxVersion, _, rfl, flags, _, rfl, host, _,
          ⟨hhost, rfl⟩, port, _, rfl, vendor, _, ⟨hvendor, rfl⟩, hardware, _, ⟨hhardware, rfl⟩,
          firmware, _, ⟨hfirmware, rfl⟩, device, rest, ⟨hdevice, rfl⟩, rfl, rfl⟩
        simp only [Request.payload, List.append_assoc]
    | openStandard => cases htype
    | submitStandard => cases htype

theorem reads_openStandard : ReadsRequest 0x10 := by
  intro b r rest
  change (do
    let request ← Reader.u32
    let user ← Reader.string
    let rate ← Reader.u32
    pure (.openStandard request user rate (← Reader.targetHash)) : Reader Request).run b = _ ↔ _
  simp only [spells_u32.bind, spells_string.bind, spells_targetHash.bind, run_pure_iff, true_and]
  constructor
  · rintro ⟨request, _, rfl, user, _, ⟨huser, rfl⟩, rate, _, rfl, target, _, ⟨hne, rfl⟩, rfl, rfl⟩
    refine ⟨⟨rfl, huser, hne⟩, ?_⟩
    simp only [Request.payload, List.append_assoc]
  · rintro ⟨⟨htype, hlegal⟩, rfl⟩
    cases r with
    | setup => cases htype
    | openStandard request user rate target =>
        refine ⟨request, _, ?_, user, _, ⟨hlegal.1, rfl⟩, rate, _, rfl, target, rest,
          ⟨hlegal.2, rfl⟩, rfl, rfl⟩
        simp only [Request.payload, List.append_assoc]
    | submitStandard => cases htype

theorem reads_submitStandard : ReadsRequest 0x1a := by
  intro b r rest
  change (do
    let channel ← Reader.u32
    let sequence ← Reader.u32
    let job ← Reader.u32
    let nonce ← Reader.u32
    let ntime ← Reader.u32
    pure (.submitStandard channel sequence job nonce ntime (← Reader.u32)) :
      Reader Request).run b = _ ↔ _
  simp only [spells_u32.bind, run_pure_iff, true_and]
  constructor
  · rintro ⟨channel, _, rfl, sequence, _, rfl, job, _, rfl, nonce, _, rfl, ntime, _, rfl, version, _,
      rfl, rfl, rfl⟩
    refine ⟨⟨rfl, trivial⟩, ?_⟩
    simp only [Request.payload, List.append_assoc]
  · rintro ⟨⟨htype, hlegal⟩, rfl⟩
    cases r with
    | setup => cases htype
    | openStandard => cases htype
    | submitStandard channel sequence job nonce ntime version =>
        refine ⟨channel, _, ?_, sequence, _, rfl, job, _, rfl, nonce, _, rfl, ntime, _, rfl, version,
          rest, rfl, rfl, rfl⟩
        simp only [Request.payload, List.append_assoc]

theorem reads_request (r : Request) : ReadsRequest r.type := by
  cases r with
  | setup => exact reads_setup
  | openStandard => exact reads_openStandard
  | submitStandard => exact reads_submitStandard

/-- The frame of a request is read as that request. -/
theorem readRequest_frame {r : Request} (h : r.WellFormed) : readRequest r.frame = .ok r := by
  have hread : (requestPayload r.type).run r.payload = .ok (r, []) :=
    (reads_request r _ _ _).mpr ⟨⟨rfl, h⟩, (List.append_nil _).symm⟩
  unfold readRequest Request.frame
  rw [if_neg (not_not.mpr rfl)]
  dsimp only
  rw [hread]
  rfl

theorem writeString_ok {s : Text} {b : Bytes} (h : writeString s = .ok b) :
    s.length ≤ 255 ∧ b = shortString (textBytes s) := by
  obtain ⟨hlength, h⟩ := guard_eq_ok.mp h
  obtain rfl := pure_eq_ok.mp h
  refine ⟨Nat.le_of_not_lt hlength, ?_⟩
  rw [shortString, textBytes, List.length_map]

/-- The request `setup` writes. -/
def setupRequest (host : Text) (port : UInt16) (agent : Text) : Request :=
  .setup 0 2 2 1 host port "ocminer".toList "supryolo".toList agent []

theorem setup_frame {host agent : Text} {port : UInt16} {f : Frame}
    (h : setup host port agent = .ok f) :
    host.length ≤ 255 ∧ agent.length ≤ 255 ∧ f = (setupRequest host port agent).frame := by
  obtain ⟨b, hhost, h⟩ := bind_eq_ok.mp h
  obtain ⟨hhostLength, rfl⟩ := writeString_ok hhost
  obtain ⟨vendor, hvendor, h⟩ := bind_eq_ok.mp h
  obtain ⟨-, rfl⟩ := writeString_ok hvendor
  obtain ⟨hardware, hhardware, h⟩ := bind_eq_ok.mp h
  obtain ⟨-, rfl⟩ := writeString_ok hhardware
  obtain ⟨b, hagent, h⟩ := bind_eq_ok.mp h
  obtain ⟨hagentLength, rfl⟩ := writeString_ok hagent
  obtain ⟨device, hdevice, h⟩ := bind_eq_ok.mp h
  obtain ⟨-, rfl⟩ := writeString_ok hdevice
  obtain rfl := pure_eq_ok.mp h
  exact ⟨hhostLength, hagentLength, rfl⟩

theorem openStandard_frame {request rate : UInt32} {user : Text} {maxTarget : Hash} {f : Frame}
    (h : openStandard request user rate maxTarget = .ok f) :
    user.length ≤ 255 ∧ f = (Request.openStandard request user rate maxTarget).frame := by
  obtain ⟨-, h⟩ := guard_eq_ok.mp h
  obtain ⟨b, huser, h⟩ := bind_eq_ok.mp h
  obtain ⟨hlength, rfl⟩ := writeString_ok huser
  obtain rfl := pure_eq_ok.mp h
  exact ⟨hlength, rfl⟩

theorem submitStandard_frame (c s j n t v : UInt32) :
    submitStandard c s j n t v = (Request.submitStandard c s j n t v).frame := by
  unfold submitStandard Request.frame
  simp only [List.flatMap_cons, List.flatMap_nil, Request.payload, wordBytes, List.append_assoc,
    List.append_nil]
  rfl

end Supryolo.Sv2
