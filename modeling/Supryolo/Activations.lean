import Supryolo.Session
import Supryolo.Lib.Histories

/-!
SV2 jobs over whole connections. A connection is a history of acts: the
transport moves on, a decoded message is handled, a share is submitted. Every
job that becomes current is a snapshot of what the messages before it set, and
it is valid until the next previous hash.
-/

namespace Supryolo.Sv2

open Histories Loops Words

variable {κ : Type}

/-- What can happen to a session. The transport may move to any state: that it
decrypted the frames is of no consequence here. -/
inductive Act (κ : Type)
  | transport (noise : Noise κ) (written handshake : Bytes)
  | authenticated (noise : Noise κ) (written handshake : Bytes)
  | message (m : Message)
  | submit (j : Job) (nonce : UInt64) (sequence : UInt32)

namespace Session

def act (lib : Foreign κ) (s : Session κ) : Act κ → Except String (List Json × Session κ)
  | .transport noise written handshake =>
      pure ([], { s with noise := noise, written := written, handshake := handshake })
  | .authenticated noise written handshake =>
      if s.phase ≠ 0 then throw "authenticated before"
      else
        pure ([], { s with
          noise := noise, written := written, handshake := handshake, phase := 1 })
  | .message m => s.handle lib m
  | .submit j nonce sequence => do pure ([], ← s.submit lib j nonce sequence)

end Session

namespace Act

/-- A previous hash names a job and comes with a time and compact bits. -/
def prevHash? : Act κ → Option (UInt32 × Hash × UInt32 × UInt32)
  | .message (.prevHash _ job hash ntime nbits) => some (job, hash, ntime, nbits)
  | _ => none

def targetSet : Act κ → Option Hash
  | .message (.openSuccess _ _ target _ _) => some target
  | .message (.target _ target) => some target
  | _ => none

def extranonceSet : Act κ → Option Bytes
  | .message (.openSuccess _ _ _ extranonce _) => some extranonce
  | _ => none

/-- The announcement of the job with the given id. -/
def newJob? (id : UInt32) : Act κ → Option NewJob
  | .message (.newJob m) => if m.job = id then some m else none
  | _ => none

/-- The id of the job that is activated, and its time. -/
def activates : Act κ → Option (UInt32 × UInt32)
  | .message (.newJob m) => m.ntime.map fun time => (m.job, time)
  | .message (.prevHash _ job _ ntime _) => some (job, ntime)
  | _ => none

/-- An act that neither sets anything nor announces or activates a job. -/
def isSilent : Act κ → Bool
  | .message (.openSuccess _ _ _ _ _) => false
  | .message (.target _ _) => false
  | .message (.newJob _) => false
  | .message (.prevHash _ _ _ _ _) => false
  | _ => true

theorem silent_readings {a : Act κ} (h : a.isSilent = true) :
    a.prevHash? = none ∧ a.targetSet = none ∧ a.extranonceSet = none ∧
      (∀ id, a.newJob? id = none) ∧ a.activates = none := by
  cases a with
  | message m =>
      cases m with
      | openSuccess => cases h
      | target => cases h
      | newJob => cases h
      | prevHash => cases h
      | _ => exact ⟨rfl, rfl, rfl, fun _ => rfl, rfl⟩
  | _ => exact ⟨rfl, rfl, rfl, fun _ => rfl, rfl⟩

end Act

namespace Session

variable {lib : Foreign κ} {s s' : Session κ} {a : Act κ} {out : List Json}

/-- Everything that jobs depend on, the phase apart. -/
structure Kept (s s' : Session κ) : Prop where
  generation : s'.generation = s.generation
  epoch : s'.epoch = s.epoch
  current : s'.current = s.current
  jobs : s'.jobs = s.jobs
  previous : s'.previous = s.previous
  havePrevious : s'.havePrevious = s.havePrevious
  networkTarget : s'.networkTarget = s.networkTarget
  target : s'.target = s.target
  extra : s'.extra = s.extra
  channel : s'.channel = s.channel

/-- Every way an act can succeed. -/
inductive Acted (s : Session κ) : Act κ → Session κ → Prop
  | silent (a : Act κ) (s' : Session κ) (hsilent : a.isSilent = true) (hkept : Kept s s')
      (hphase : s'.phase = s.phase ∨ (s.phase < 3 ∧ s'.phase < 3)) : Acted s a s'
  | opened (request channel group : UInt32) (target : Hash) (extranonce : Bytes)
      (hphase : s.phase = 2) (hlength : extranonce.length = 4 ∨ extranonce.length = 12) :
      Acted s (.message (.openSuccess request channel target extranonce group))
        { s with
          channel := channel, group := group, target := target
          extra := extranonce ++ List.replicate (12 - extranonce.length) 0, phase := 3 }
  | targeted (channel : UInt32) (target : Hash) (hphase : s.phase = 3) :
      Acted s (.message (.target channel target)) { s with target := target }
  | stored (m : NewJob) (hphase : s.phase = 3) (hroom : s.jobs.entries.length < 1024)
      (hfresh : m.job ∉ s.jobs) (hntime : m.ntime = none) :
      Acted s (.message (.newJob m))
        { s with jobs := s.jobs.insert m.job { wire := m, future := true } }
  | announced (m : NewJob) (time : UInt32) (job : Job) (hphase : s.phase = 3)
      (hroom : s.jobs.entries.length < 1024) (hfresh : m.job ∉ s.jobs)
      (hntime : m.ntime = some time) (hjob : Activated s m time job) :
      Acted s (.message (.newJob m))
        { s with
          generation := s.generation + 1, current := some job
          jobs := s.jobs.insert m.job { wire := m, job := job, future := false } }
  | renewed (channel id ntime nbits : UInt32) (hash networkTarget : Hash) (selected : Stored)
      (job : Job) (hphase : s.phase = 3) (hlookup : s.jobs.lookup id = some selected)
      (hnetwork : compactTarget (hex (leBytes 4 nbits.toUInt64).reverse) = .ok networkTarget)
      (hjob : Activated { s with
        jobs := ∅, epoch := s.epoch + 1, previous := hash, networkTarget := networkTarget
        havePrevious := true } selected.wire ntime job) :
      Acted s (.message (.prevHash channel id hash ntime nbits))
        { s with
          epoch := s.epoch + 1, previous := hash, networkTarget := networkTarget
          havePrevious := true, generation := s.generation + 1, current := some job
          jobs := (∅ : AList fun _ : UInt32 => Stored).insert id
            { selected with job := job, future := false } }

theorem acted_message {m : Message} (h : s.apply lib m = .ok (out, s')) :
    Acted s (.message m) s' := by
  cases applied_of_ok h with
  | greeted version flags noise written hphase =>
      exact .silent _ _ rfl ⟨rfl, rfl, rfl, rfl, rfl, rfl, rfl, rfl, rfl, rfl⟩
        (Or.inr ⟨by omega, by simp⟩)
  | opened request channel group target extranonce hphase hlength =>
      exact .opened request channel group target extranonce hphase hlength
  | stored m hphase hroom hfresh hntime => exact .stored m hphase hroom hfresh hntime
  | announced m time job hphase hroom hfresh hntime hjob =>
      exact .announced m time job hphase hroom hfresh hntime hjob
  | renewed channel id ntime nbits hash networkTarget selected job hphase hlookup hnetwork hjob =>
      exact .renewed channel id ntime nbits hash networkTarget selected job hphase hlookup hnetwork
        hjob
  | targeted channel target number hphase => exact .targeted channel target hphase
  | accepted =>
      exact .silent _ _ rfl ⟨rfl, rfl, rfl, rfl, rfl, rfl, rfl, rfl, rfl, rfl⟩ (Or.inl rfl)
  | rejected =>
      exact .silent _ _ rfl ⟨rfl, rfl, rfl, rfl, rfl, rfl, rfl, rfl, rfl, rfl⟩ (Or.inl rfl)

theorem acted_of_ok (h : s.act lib a = .ok (out, s')) : Acted s a s' := by
  cases a with
  | transport noise written handshake =>
      obtain ⟨-, rfl⟩ := Prod.mk.inj (pure_eq_ok.mp h)
      exact .silent _ _ rfl ⟨rfl, rfl, rfl, rfl, rfl, rfl, rfl, rfl, rfl, rfl⟩ (Or.inl rfl)
  | authenticated noise written handshake =>
      obtain ⟨hphase, h⟩ := guard_eq_ok.mp h
      obtain ⟨-, rfl⟩ := Prod.mk.inj (pure_eq_ok.mp h)
      exact .silent _ _ rfl ⟨rfl, rfl, rfl, rfl, rfl, rfl, rfl, rfl, rfl, rfl⟩
        (Or.inr ⟨by omega, by simp⟩)
  | message m =>
      obtain ⟨events, happly, -⟩ := handle_ok h
      exact acted_message happly
  | submit j nonce sequence =>
      obtain ⟨next, hsubmit, h⟩ := bind_eq_ok.mp h
      obtain ⟨-, rfl⟩ := Prod.mk.inj (pure_eq_ok.mp h)
      obtain ⟨-, noise, written, rfl⟩ := submit_ok hsubmit
      exact .silent _ _ rfl ⟨rfl, rfl, rfl, rfl, rfl, rfl, rfl, rfl, rfl, rfl⟩ (Or.inl rfl)

/-- A read is a history: the transport moves on, then its messages are handled. -/
theorem receive_acts {bytes : Bytes} (h : s.receive lib bytes = .ok (out, s')) :
    ∃ acts events, history (act lib) s acts = .ok (events, s') ∧ events.flatten = out := by
  refine receive_induction
    (motive := fun out next => ∃ acts events,
      history (act lib) s acts = .ok (events, next) ∧ events.flatten = out) h ?_ ?_
  · rintro noise written handshake phase (rfl | ⟨hzero, rfl⟩)
    · exact ⟨[.transport noise written handshake], [[]], rfl, rfl⟩
    · refine ⟨[.authenticated noise written handshake], [[]], ?_, rfl⟩
      refine history_cons.mpr ⟨_, _, _, ?_, rfl, rfl⟩
      rw [act, if_neg (not_not.mpr hzero)]
      rfl
  · rintro out s₁ m events s₂ ⟨acts, before, hbefore, rfl⟩ happly
    refine ⟨acts ++ [.message m], before ++ [events ++ [promptEvent]], ?_, by simp⟩
    refine append_history hbefore (history_cons.mpr ⟨_, _, _, ?_, rfl, rfl⟩)
    rw [act, handle, happly]
    rfl

theorem Acted.counts (h : Acted s a s') : Counts s s' := by
  cases h with
  | silent a s' hsilent hkept hphase => exact .of_same hkept.generation hkept.epoch hkept.jobs
  | opened request channel group target extranonce hphase => exact .of_same rfl rfl rfl
  | targeted channel target hphase => exact .of_same rfl rfl rfl
  | stored m hphase hroom hfresh hntime => exact .of_stored rfl rfl rfl rfl
  | announced m time job hphase hroom hfresh hntime hjob =>
      exact .of_activated rfl (Or.inl rfl) rfl (Or.inl rfl) hjob.generation
  | renewed channel id ntime nbits hash networkTarget selected job hphase hlookup hnetwork hjob =>
      exact .of_activated rfl (Or.inr rfl) rfl (Or.inr rfl) hjob.generation

/-- A job that has been activated in this state or before. -/
structure Past (s : Session κ) (j : Job) : Prop where
  phase : s.phase = 3
  older : s.Older j

theorem Past.acted {j : Job} (hpast : s.Past j) (h : Acted s a s') : s'.Past j := by
  refine ⟨?_, hpast.older.counts h.counts⟩
  have hthree := hpast.phase
  cases h with
  | silent a s' hsilent hkept hphase =>
      rcases hphase with hphase | ⟨hphase, -⟩ <;> omega
  | opened request channel group target extranonce hphase => omega
  | _ => exact hthree

/-- A new entry under a fresh id that no past job can claim changes nothing. -/
private theorem stands_insert {j : Job} {id : UInt32} {entry : Stored} (hfresh : id ∉ s.jobs)
    (hother : entry.future = true ∨ entry.job.generation ≠ j.generation) {next : Session κ}
    (hjobs : next.jobs = s.jobs.insert id entry) (hphase : next.phase = s.phase)
    (hchannel : next.channel = s.channel) (hepoch : next.epoch = s.epoch) :
    next.Stands j ↔ s.Stands j := by
  rw [Stands, Stands, hjobs, hphase, hchannel, hepoch]
  by_cases hid : j.wireJob = id
  · rw [hid, AList.lookup_insert, AList.lookup_eq_none.mpr hfresh]
    constructor
    · rintro ⟨stored, hstored, -, -, -, hactive, hgeneration⟩
      cases hstored
      rcases hother with hfuture | hne
      · rw [hfuture] at hactive
        cases hactive
      · exact absurd hgeneration hne
    · rintro ⟨stored, hstored, -⟩
      cases hstored
  · rw [AList.lookup_insert_ne hid]

/-- Only a previous hash ends the standing of a job. -/
theorem stands_acted {j : Job} (hpast : s.Past j) (h : Acted s a s') :
    s'.Stands j ↔ s.Stands j ∧ a.prevHash? = none := by
  have hgeneration := hpast.older.generation
  have hepoch := hpast.older.epoch
  have hthree := hpast.phase
  cases h with
  | silent a s' hsilent hkept hphase =>
      have hsame : s'.phase = s.phase := by
        rcases hphase with hphase | ⟨hphase, -⟩ <;> omega
      rw [Stands, Stands, hkept.jobs, hkept.channel, hkept.epoch, hsame,
        (Act.silent_readings hsilent).1]
      simp
  | opened request channel group target extranonce hphase => omega
  | targeted channel target hphase =>
      exact ⟨fun hstands => ⟨hstands, rfl⟩, fun hstands => hstands.1⟩
  | stored m hphase hroom hfresh hntime =>
      have hsame : ({ s with jobs := s.jobs.insert m.job { wire := m, future := true } } :
          Session κ).Stands j ↔ s.Stands j :=
        stands_insert hfresh (Or.inl rfl) rfl rfl rfl rfl
      rw [hsame]
      exact ⟨fun hstands => ⟨hstands, rfl⟩, fun hstands => hstands.1⟩
  | announced m time job hphase hroom hfresh hntime hjob =>
      have hnew : job.generation ≠ j.generation := by
        have hnext := hjob.generation
        omega
      have hsame : ({ s with
          generation := s.generation + 1, current := some job
          jobs := s.jobs.insert m.job { wire := m, job := job, future := false } } :
          Session κ).Stands j ↔ s.Stands j :=
        stands_insert hfresh (Or.inr hnew) rfl rfl rfl rfl
      rw [hsame]
      exact ⟨fun hstands => ⟨hstands, rfl⟩, fun hstands => hstands.1⟩
  | renewed channel id ntime nbits hash networkTarget selected job hphase hlookup hnetwork hjob =>
      constructor
      · rintro ⟨stored, -, -, -, hsame, -⟩
        dsimp only at hsame
        omega
      · rintro ⟨-, hnone⟩
        cases hnone

theorem stands_of_history {first : Session κ} {acts : List (Act κ)} {events : List (List Json)}
    {j : Job} (hpast : first.Past j) (h : history (act lib) first acts = .ok (events, s)) :
    s.Past j ∧ (s.Stands j ↔ first.Stands j ∧ ∀ a ∈ acts, a.prevHash? = none) := by
  refine history_induction
    (motive := fun acts _ s => s.Past j ∧
      (s.Stands j ↔ first.Stands j ∧ ∀ a ∈ acts, a.prevHash? = none)) h ?_ ?_
  · exact ⟨hpast, by simp⟩
  · rintro acts events s a out s' ⟨hbefore, ih⟩ hstep
    have hacted := acted_of_ok hstep
    refine ⟨hbefore.acted hacted, ?_⟩
    rw [stands_acted hbefore hacted, ih]
    simp only [List.mem_append, List.mem_singleton]
    constructor
    · rintro ⟨⟨hstands, hearlier⟩, hlast⟩
      refine ⟨hstands, ?_⟩
      rintro b (hb | rfl)
      · exact hearlier b hb
      · exact hlast
    · rintro ⟨hstands, hall⟩
      exact ⟨⟨hstands, fun b hb => hall b (Or.inl hb)⟩, hall a (Or.inr rfl)⟩

/-- The state after some acts, from what they set and announced. -/
structure Holds (acts : List (Act κ)) (s : Session κ) : Prop where
  count : s.generation = acts.countP fun a => a.activates.isSome
  numbered : s.Numbered
  phase : s.phase ≤ 3
  closed : s.phase < 3 → s.jobs = ∅ ∧ s.current = none
  havePrevious : s.havePrevious = (lastSet Act.prevHash? acts).isSome
  previous : ∀ job hash ntime nbits, lastSet Act.prevHash? acts = some (job, hash, ntime, nbits) →
    s.previous = hash ∧ compactTarget (hex (leBytes 4 nbits.toUInt64).reverse) = .ok s.networkTarget
  target : s.phase = 3 → lastSet Act.targetSet acts = some s.target
  extra : s.phase = 3 → ∃ extranonce, lastSet Act.extranonceSet acts = some extranonce ∧
    s.extra = extranonce ++ List.replicate (12 - extranonce.length) 0 ∧ s.extra.length = 12
  wire : ∀ id stored, s.jobs.lookup id = some stored →
    lastSet (Act.newJob? id) acts = some stored.wire ∧ stored.wire.job = id
  room : s.jobs.entries.length ≤ 1024
  current : ∀ j, s.current = some j → s.Past j ∧ s.Stands j ∧ s.havePrevious = true

theorem holds_start (state : κ) (written : Bytes) (host : Text) (port : UInt16) (user : Text)
    (rate : UInt32) : Holds [] (start state written host port user rate) := by
  refine ⟨rfl, ?_, by simp [start], fun _ => ⟨rfl, rfl⟩, rfl, (by intro _ _ _ _ h; cases h),
    (by intro h; cases h), (by intro h; cases h), ?_, Nat.zero_le _, (by intro _ h; cases h)⟩
  · intro id stored hlookup
    cases hlookup
  · intro id stored hlookup
    cases hlookup

/-- The generation counts the activations. -/
private theorem count_acted {acts : List (Act κ)}
    (hcount : s.generation = acts.countP fun a => a.activates.isSome) (h : Acted s a s') :
    s'.generation = (acts ++ [a]).countP fun a => a.activates.isSome := by
  rw [List.countP_append, List.countP_singleton, ← hcount]
  cases h with
  | silent a s' hsilent hkept hphase =>
      rw [(Act.silent_readings hsilent).2.2.2.2]
      exact hkept.generation
  | stored m hphase hroom hfresh hntime =>
      rw [Act.activates, hntime]
      rfl
  | announced m time job hphase hroom hfresh hntime hjob =>
      rw [Act.activates, hntime]
      rfl
  | _ => rfl

private theorem lookup_insert_cases {jobs : AList fun _ : UInt32 => Stored} {id key : UInt32}
    {entry stored : Stored} (h : (jobs.insert key entry).lookup id = some stored) :
    (id = key ∧ stored = entry) ∨ (id ≠ key ∧ jobs.lookup id = some stored) := by
  by_cases hid : id = key
  · subst hid
    rw [AList.lookup_insert] at h
    exact Or.inl ⟨rfl, (Option.some.inj h).symm⟩
  · rw [AList.lookup_insert_ne hid] at h
    exact Or.inr ⟨hid, h⟩

private theorem length_insert_le (jobs : AList fun _ : UInt32 => Stored) (id : UInt32)
    (entry : Stored) : (jobs.insert id entry).entries.length ≤ jobs.entries.length + 1 :=
  Nat.succ_le_succ (List.kerase_sublist id jobs.entries).length_le

/-- The job that has just been activated under its id stands. -/
private theorem stands_activated {before : Session κ} {wire : NewJob} {time : UInt32} {job : Job}
    {jobs : AList fun _ : UInt32 => Stored} (hjob : Activated before wire time job)
    (hphase : s.phase = 3) (hchannel : s.channel = before.channel) (hepoch : s.epoch = before.epoch)
    (hjobs : s.jobs = jobs.insert wire.job { wire := wire, job := job, future := false }) :
    s.Stands job := by
  refine ⟨{ wire := wire, job := job, future := false }, ?_, hphase, ?_, ?_, rfl, rfl⟩
  · rw [hjobs, hjob.wireJob, AList.lookup_insert]
  · rw [hjob.channel, hchannel]
  · rw [hjob.epoch, hepoch]

private theorem Activated.older {before : Session κ} {wire : NewJob} {time : UInt32} {job : Job}
    (hjob : Activated before wire time job) (hgeneration : s.generation = before.generation + 1)
    (hepoch : s.epoch = before.epoch) : s.Older job := by
  have hnumber := hjob.generation
  have hturn := hjob.epoch
  exact ⟨by omega, by omega, by omega, by omega⟩

private theorem Holds.newJob {acts : List (Act κ)} (h : Holds acts s) {m : NewJob} {entry : Stored}
    {id : UInt32} {stored : Stored}
    (hlookup : (s.jobs.insert m.job entry).lookup id = some stored) (hentry : entry.wire = m) :
    lastSet (Act.newJob? id) (acts ++ [.message (.newJob m)]) = some stored.wire ∧
      stored.wire.job = id := by
  rw [lastSet_concat, Act.newJob?]
  rcases lookup_insert_cases hlookup with ⟨rfl, rfl⟩ | ⟨hid, hlookup⟩
  · rw [if_pos rfl, hentry]
    exact ⟨rfl, rfl⟩
  · rw [if_neg (Ne.symm hid)]
    exact h.wire id stored hlookup

theorem Holds.acted {acts : List (Act κ)} (h : Holds acts s) (hacted : Acted s a s') :
    Holds (acts ++ [a]) s' := by
  have hcurrent (j : Job) (hj : s.current = some j) (hprev : a.prevHash? = none) :
      s'.Past j ∧ s'.Stands j := by
    obtain ⟨hpast, hstands, -⟩ := h.current j hj
    exact ⟨hpast.acted hacted, (stands_acted hpast hacted).mpr ⟨hstands, hprev⟩⟩
  have hcount := count_acted h.count hacted
  have hnumbered := h.numbered.counts hacted.counts
  cases hacted with
  | silent a s' hsilent hkept hphase =>
      obtain ⟨hprev, htarget, hextra, hnew, -⟩ := Act.silent_readings hsilent
      have hthree : s'.phase = 3 → s.phase = 3 := by
        have hle := h.phase
        rcases hphase with hsame | ⟨-, hlt⟩ <;> omega
      refine ⟨hcount, hnumbered, ?_, ?_, ?_, ?_, ?_, ?_, ?_, ?_, ?_⟩
      · have hle := h.phase
        rcases hphase with hsame | ⟨-, hlt⟩ <;> omega
      · intro hlt
        rw [hkept.jobs, hkept.current]
        refine h.closed ?_
        rcases hphase with hsame | ⟨hbefore, -⟩ <;> omega
      · rw [hkept.havePrevious, h.havePrevious, lastSet_concat, hprev]
        rfl
      · rw [lastSet_concat, hprev, hkept.previous, hkept.networkTarget]
        exact h.previous
      · rw [lastSet_concat, htarget, hkept.target]
        exact fun hafter => h.target (hthree hafter)
      · rw [lastSet_concat, hextra, hkept.extra]
        exact fun hafter => h.extra (hthree hafter)
      · intro id stored
        rw [lastSet_concat, hnew, hkept.jobs]
        exact h.wire id stored
      · rw [hkept.jobs]
        exact h.room
      · intro j hj
        rw [hkept.current] at hj
        obtain ⟨hpast, hstands⟩ := hcurrent j hj hprev
        exact ⟨hpast, hstands, hkept.havePrevious.trans (h.current j hj).2.2⟩
  | opened request channel group target extranonce hphase hlength =>
      have hclosed := h.closed (by omega)
      refine ⟨hcount, hnumbered, le_refl _, fun hlt => absurd hlt (by simp), ?_, ?_, ?_, ?_, ?_, h.room, ?_⟩
      · rw [lastSet_concat]
        exact h.havePrevious
      · rw [lastSet_concat]
        exact h.previous
      · rw [lastSet_concat]
        exact fun _ => rfl
      · rw [lastSet_concat]
        refine fun _ => ⟨extranonce, rfl, rfl, ?_⟩
        rw [List.length_append, List.length_replicate]
        omega
      · intro id stored hlookup
        dsimp only at hlookup
        rw [hclosed.1] at hlookup
        cases hlookup
      · intro j hj
        dsimp only at hj
        rw [hclosed.2] at hj
        cases hj
  | targeted channel target hphase =>
      refine ⟨hcount, hnumbered, h.phase, h.closed, ?_, ?_, ?_, ?_, ?_, h.room, ?_⟩
      · rw [lastSet_concat]
        exact h.havePrevious
      · rw [lastSet_concat]
        exact h.previous
      · rw [lastSet_concat]
        exact fun _ => rfl
      · rw [lastSet_concat]
        exact h.extra
      · intro id stored
        rw [lastSet_concat]
        exact h.wire id stored
      · intro j hj
        obtain ⟨hpast, hstands⟩ := hcurrent j hj rfl
        exact ⟨hpast, hstands, (h.current j hj).2.2⟩
  | stored m hphase hroom hfresh hntime =>
      refine ⟨hcount, hnumbered, h.phase, fun hlt => absurd hphase (Nat.ne_of_lt hlt), ?_, ?_, ?_, ?_,
        fun id stored hlookup => h.newJob hlookup rfl, ?_, ?_⟩
      · rw [lastSet_concat]
        exact h.havePrevious
      · rw [lastSet_concat]
        exact h.previous
      · rw [lastSet_concat]
        exact h.target
      · rw [lastSet_concat]
        exact h.extra
      · exact (length_insert_le s.jobs m.job _).trans hroom
      · intro j hj
        obtain ⟨hpast, hstands⟩ := hcurrent j hj rfl
        exact ⟨hpast, hstands, (h.current j hj).2.2⟩
  | announced m time job hphase hroom hfresh hntime hjob =>
      refine ⟨hcount, hnumbered, h.phase, fun hlt => absurd hphase (Nat.ne_of_lt hlt), ?_, ?_, ?_, ?_,
        fun id stored hlookup => h.newJob hlookup rfl, ?_, ?_⟩
      · rw [lastSet_concat]
        exact h.havePrevious
      · rw [lastSet_concat]
        exact h.previous
      · rw [lastSet_concat]
        exact h.target
      · rw [lastSet_concat]
        exact h.extra
      · exact (length_insert_le s.jobs m.job _).trans hroom
      · intro j hj
        cases hj
        exact ⟨⟨hphase, hjob.older rfl rfl⟩, stands_activated hjob hphase rfl rfl rfl, hjob.ready⟩
  | renewed channel id ntime nbits hash networkTarget selected job hphase hlookup hnetwork hjob =>
      obtain ⟨hwire, hid⟩ := h.wire id selected hlookup
      refine ⟨hcount, hnumbered, h.phase, fun hlt => absurd hphase (Nat.ne_of_lt hlt), ?_, ?_, ?_, ?_,
        ?_, ?_, ?_⟩
      · rw [lastSet_concat]
        rfl
      · rw [lastSet_concat]
        intro job' hash' ntime' nbits' hlast
        cases hlast
        exact ⟨rfl, hnetwork⟩
      · rw [lastSet_concat]
        exact h.target
      · rw [lastSet_concat]
        exact h.extra
      · intro other stored hstored
        rcases lookup_insert_cases hstored with ⟨rfl, rfl⟩ | ⟨-, hnone⟩
        · rw [lastSet_concat]
          exact ⟨hwire, hid⟩
        · cases hnone
      · exact (length_insert_le ∅ id _).trans (by simp)
      · intro j hj
        cases hj
        subst hid
        exact ⟨⟨hphase, hjob.older rfl rfl⟩, stands_activated hjob hphase rfl rfl rfl, rfl⟩

theorem holds_of_history {state : κ} {written : Bytes} {host user : Text} {port : UInt16}
    {rate : UInt32} {acts : List (Act κ)} {events : List (List Json)}
    (h : history (act lib) (start state written host port user rate) acts = .ok (events, s)) :
    Holds acts s := by
  refine history_induction (motive := fun acts _ s => Holds acts s) h
    (holds_start state written host port user rate) ?_
  intro acts events s a out s' ih hstep
  exact ih.acted (acted_of_ok hstep)

/-! ### Validity and snapshots over whole connections -/

/-- What the validity of a job comes down to. A job is current from its
activation on, so the acts after any point at which it was current will do. The
generation has 64 bits, so a job of an earlier previous hash is told from later
ones as long as at most `2 ^ 64` jobs have been activated. -/
structure ValidityExact (lib : Foreign κ) (first : Session κ) (acts : List (Act κ))
    (s : Session κ) : Prop where
  exact : (acts.countP fun a => a.activates.isSome) ≤ 2 ^ 64 →
    ∀ i events before j, history (act lib) first (acts.take i) = .ok (events, before) →
    before.current = some j → (s.valid j = true ↔ ∀ a ∈ acts.drop i, a.prevHash? = none)
  kept : ∀ i events before j, history (act lib) first (acts.take i) = .ok (events, before) →
    before.current = some j → (∀ a ∈ acts.drop i, a.prevHash? = none) → s.valid j = true
  current : ∀ j, s.current = some j → s.valid j = true ∧ s.extra.length = 12 ∧
    s.havePrevious = true ∧ ∃ a ∈ acts, a.prevHash?.isSome = true
  stored : s.jobs.entries.length ≤ 1024

/-- A job that was current stands exactly until the next previous hash. -/
theorem stands_since {first : Session κ} {acts : List (Act κ)} {i : Nat}
    {events earlier : List (List Json)} {before : Session κ} {j : Job}
    (h : history (act lib) first acts = .ok (events, s))
    (hbefore : history (act lib) first (acts.take i) = .ok (earlier, before))
    (hholds : Holds (acts.take i) before) (hj : before.current = some j) :
    s.Past j ∧ (s.Stands j ↔ ∀ a ∈ acts.drop i, a.prevHash? = none) := by
  rw [← List.take_append_drop i acts] at h
  obtain ⟨earlier', middle, later, hmiddle, hlater, -⟩ := history_append.mp h
  rw [hbefore] at hmiddle
  cases hmiddle
  obtain ⟨hpast, hstands, -⟩ := hholds.current j hj
  obtain ⟨hafter, hexact⟩ := stands_of_history hpast hlater
  refine ⟨hafter, ?_⟩
  rw [hexact]
  exact ⟨fun hboth => hboth.2, fun hall => ⟨hstands, hall⟩⟩

/-- In every connection a job that was ever current stays valid until the next
previous hash, whatever else the pool says, and is never valid after it as long
as at most `2 ^ 64` jobs were activated. The current job is always valid; it has
an extranonce of 12 bytes and a previous hash, and at most 1024 jobs are stored. -/
theorem session_validity_exact {state : κ} {written : Bytes} {host user : Text} {port : UInt16}
    {rate : UInt32} {acts : List (Act κ)} {events : List (List Json)}
    (h : history (act lib) (start state written host port user rate) acts = .ok (events, s)) :
    ValidityExact lib (start state written host port user rate) acts s := by
  have hholds := holds_of_history h
  refine ⟨?_, ?_, ?_, hholds.room⟩
  · intro hfew i earlier before j hbefore hj
    obtain ⟨hpast, hexact⟩ := stands_since h hbefore (holds_of_history hbefore) hj
    rw [← hexact]
    refine ⟨stands_of_valid ?_ hholds.numbered hpast.older, valid_of_stands⟩
    rw [hholds.count]
    exact hfew
  · intro i earlier before j hbefore hj hall
    exact valid_of_stands ((stands_since h hbefore (holds_of_history hbefore) hj).2.mpr hall)
  · intro j hj
    obtain ⟨hpast, hstands, hprevious⟩ := hholds.current j hj
    obtain ⟨extranonce, -, -, hlength⟩ := hholds.extra hpast.phase
    refine ⟨valid_of_stands hstands, hlength, hprevious, ?_⟩
    rw [hholds.havePrevious] at hprevious
    obtain ⟨value, hvalue⟩ := Option.isSome_iff_exists.mp hprevious
    obtain ⟨a, ha, hset⟩ := List.mem_filterMap.mp (List.mem_of_getLast? hvalue)
    exact ⟨a, ha, by rw [hset]; rfl⟩

/-- The pool opens channel 5, announces job 7, activates it and lowers the
target. -/
def sampleActs : List (Act Unit) :=
  [.authenticated { ready := true, framing := { state := () } } [] [],
    .message (.setupSuccess 2 0),
    .message (.openSuccess 1 5 (Vector.replicate 32 255) [0, 0, 0, 0] 6),
    .message (.newJob ⟨5, 7, none, 0x20000000, Vector.replicate 32 0⟩),
    .message (.prevHash 5 7 (Vector.replicate 32 0) 0x60000000 0x1d00ffff),
    .message (.target 5 (Vector.replicate 32 1))]

def sampleStart : Session Unit := start () [] "pool".toList 3333 "worker".toList 0x3f800000

theorem sample_acts : ∃ events s j,
    history (act sampleForeign) sampleStart sampleActs = .ok (events, s) ∧ s.current = some j ∧
      j.generation = s.generation := by
  have hcheck : (match history (act sampleForeign) sampleStart sampleActs with
      | .ok (_, s) => s.current.any fun j => j.generation == s.generation
      | .error _ => false) = true := by
    decide +kernel
  cases hrun : history (act sampleForeign) sampleStart sampleActs with
  | error e => rw [hrun] at hcheck; cases hcheck
  | ok result =>
      rw [hrun] at hcheck
      obtain ⟨j, hj, hlatest⟩ := Option.any_eq_true _ _ |>.mp hcheck
      exact ⟨result.1, result.2, j, rfl, hj, beq_iff_eq.mp hlatest⟩

theorem session_validity_exact_sample : ∃ events s j,
    history (act sampleForeign) sampleStart sampleActs = .ok (events, s) ∧ s.current = some j ∧
      ValidityExact sampleForeign sampleStart sampleActs s := by
  obtain ⟨events, s, j, hrun, hj, -⟩ := sample_acts
  exact ⟨events, s, j, hrun, hj, session_validity_exact hrun⟩

/-- The job `id` is held in an open channel, so a previous hash can activate it. -/
structure Renews (s : Session κ) (id : UInt32) : Prop where
  phase : s.phase = 3
  extra : s.extra.length = 12
  held : ∃ stored, s.jobs.lookup id = some stored ∧ stored.wire.job = id

/-- What has become of the session when a previous hash activated the job `id`. -/
structure Renewed (s s' : Session κ) (id : UInt32) (job : Job) : Prop where
  renews : s'.Renews id
  channel : s'.channel = s.channel
  noise : s'.noise = s.noise
  generation : s'.generation = s.generation + 1
  epoch : s'.epoch = s.epoch + 1
  current : s'.current = some job
  stands : s'.Stands job
  number : job.generation = s'.generation
  turn : job.epoch = s'.epoch
  wireJob : job.wireJob = id
  sv2 : job.sv2 = true

theorem Renews.prevHash {id : UInt32} (h : s.Renews id) {hash : Hash} {nbits : UInt32}
    (hhidden : (hash.toList.take 6).all (· == 0) = true)
    (hbits : ∃ target, compactTarget (hex (leBytes 4 nbits.toUInt64).reverse) = .ok target)
    (ntime : UInt32) :
    ∃ s' job, s.prevHash s.channel id hash ntime nbits = .ok s' ∧ Renewed s s' id job ∧
      job.time32 = ntime := by
  obtain ⟨selected, hlookup, hwire⟩ := h.held
  obtain ⟨networkTarget, hnetwork⟩ := hbits
  obtain ⟨header, hheader⟩ := standardWork_total selected.wire.root h.extra hhidden ntime
  have hopen : ¬ (s.phase ≠ 3 ∨ (s.channel ≠ s.channel ∧ s.channel ≠ s.group)) := by
    simp [h.phase]
  obtain ⟨s', hrun⟩ : ∃ s', s.prevHash s.channel id hash ntime nbits = .ok s' := by
    unfold Session.prevHash activate
    rw [if_neg hopen]
    simp only [hlookup, hhidden, hnetwork, hheader, ok_bind]
    exact ⟨_, rfl⟩
  refine ⟨s', ?_⟩
  cases prevHash_ok hrun with
  | renewed _ _ _ _ _ networkTarget stored job _ hstored _ hjob hsv2 =>
      rw [hlookup] at hstored
      cases hstored
      have hid : job.wireJob = id := hjob.wireJob.trans hwire
      refine ⟨job, hrun, ⟨⟨h.phase, h.extra, _, AList.lookup_insert _, hwire⟩, rfl, rfl, rfl, rfl,
        rfl, ?_, hjob.generation, hjob.epoch, hid, hsv2⟩, hjob.time32⟩
      refine ⟨{ selected with job := job, future := false }, ?_, h.phase, hjob.channel, hjob.epoch,
        rfl, rfl⟩
      rw [hid]
      exact AList.lookup_insert _

/-- Any number of previous hashes can follow one another. Each activates the job
under a number and in an epoch of its own. -/
theorem history_renewals (lib : Foreign κ) (n : Nat) {id : UInt32} {hash : Hash} {nbits : UInt32}
    (h : s.Renews id) (hhidden : (hash.toList.take 6).all (· == 0) = true)
    (hbits : ∃ target, compactTarget (hex (leBytes 4 nbits.toUInt64).reverse) = .ok target)
    (ntime : UInt32) : ∃ events s',
      history (act lib) s (List.replicate n (.message (.prevHash s.channel id hash ntime nbits))) =
          .ok (events, s') ∧ s'.generation = s.generation + n ∧ s'.epoch = s.epoch + n ∧
        s'.channel = s.channel ∧
        (0 < n → ∃ job, job.generation = s'.generation ∧ job.epoch = s'.epoch ∧ job.wireJob = id ∧
          s'.Stands job) := by
  induction n generalizing s with
  | zero => exact ⟨[], s, rfl, rfl, rfl, rfl, fun hpositive => by cases hpositive⟩
  | succ n ih =>
      obtain ⟨next, job, hrun, hnext, -⟩ := h.prevHash hhidden hbits ntime
      have hact : s.act lib (.message (.prevHash s.channel id hash ntime nbits)) =
          .ok ([promptEvent], next) := by
        simp only [act, handle, Session.apply, hrun, ok_bind]
        rfl
      obtain ⟨events, s', hrest, hgeneration, hepoch, hchannel, hlast⟩ := ih hnext.renews
      rw [hnext.channel] at hrest
      refine ⟨_, s', history_cons.mpr ⟨_, _, _, hact, hrest, rfl⟩, ?_, ?_,
        hchannel.trans hnext.channel, ?_⟩
      · rw [hgeneration, hnext.generation]
        exact Nat.add_right_comm _ _ _
      · rw [hepoch, hnext.epoch]
        exact Nat.add_right_comm _ _ _
      · intro _
        cases n with
        | zero =>
            obtain ⟨-, rfl⟩ := Prod.mk.inj (pure_eq_ok.mp hrest)
            exact ⟨job, hnext.number, hnext.turn, hnext.wireJob, hnext.stands⟩
        | succ n => exact hlast (Nat.succ_pos n)

/-- After `2 ^ 64` more previous hashes that name it, the first job compares equal
to the last in every counter: it is valid again. -/
theorem superseded_valid_again : ∃ acts events s i earlier before j,
    history (act sampleForeign) sampleStart acts = .ok (events, s) ∧
      history (act sampleForeign) sampleStart (acts.take i) = .ok (earlier, before) ∧
      before.current = some j ∧ (∃ a ∈ acts.drop i, a.prevHash?.isSome = true) ∧
      s.valid j = true := by
  obtain ⟨earlier, before, j, hbefore, hj, hlatest⟩ := sample_acts
  have hholds := holds_of_history hbefore
  obtain ⟨hpast, hstands, -⟩ := hholds.current j hj
  obtain ⟨stored, hlookup, hphase, hchannel, hepoch, -, -⟩ := hstands
  obtain ⟨-, -, -, hextra⟩ := hholds.extra hphase
  have hrenews : before.Renews j.wireJob :=
    ⟨hphase, hextra, stored, hlookup, (hholds.wire _ _ hlookup).2⟩
  obtain ⟨later, s, hlater, hgeneration, hturn, hsame, hlast⟩ :=
    history_renewals sampleForeign (2 ^ 64) hrenews
      (by decide : ((Vector.replicate 32 0 : Hash).toList.take 6).all (· == 0) = true)
      (⟨_, rfl⟩ : ∃ target, compactTarget (hex (leBytes 4 (0x1d00ffff : UInt32).toUInt64).reverse) =
        .ok target) 0x60000000
  obtain ⟨last, hnumber, -, hwire, hheld, hheldLookup, hopen, -, -, hactive, hheldNumber⟩ :=
    hlast (by decide)
  refine ⟨_, _, s, sampleActs.length, earlier, before, j, append_history hbefore hlater, ?_, hj, ?_,
    valid_iff.mpr ⟨hheld, ?_, hopen, hchannel.trans hsame.symm, ?_, hactive, ?_⟩⟩
  · rw [List.take_left]
    exact hbefore
  · rw [List.drop_left]
    exact ⟨_, List.mem_replicate.mpr ⟨by decide, rfl⟩, rfl⟩
  · rw [← hwire]
    exact hheldLookup
  · rw [hturn, hepoch]
    exact sameCount_iff.mpr (Nat.add_mod_right _ _).symm
  · rw [hheldNumber, hnumber, hgeneration, hlatest]
    exact sameCount_iff.mpr (Nat.add_mod_right _ _)

/-- The job `id` as the acts make it: its header is the work of the latest
previous hash, its own root, the extranonce of the channel and the time of its
activation; its target is the smaller of the channel's and the easiest one. -/
def Exact (acts : List (Act κ)) (id time : UInt32) (j : Job) : Prop :=
  ∃ wire named hash ntime nbits target extranonce,
    lastSet (Act.newJob? id) acts = some wire ∧
    lastSet Act.prevHash? acts = some (named, hash, ntime, nbits) ∧
    lastSet Act.targetSet acts = some target ∧
    lastSet Act.extranonceSet acts = some extranonce ∧
    j.wireJob = id ∧ j.time32 = time ∧
    standardWork hash wire.root (extranonce ++ List.replicate (12 - extranonce.length) 0) time =
      .ok j.work.header ∧
    beNat j.work.target.toList = min (beNat target.toList) (2 ^ 224 - 1) ∧
    compactTarget (hex (leBytes 4 nbits.toUInt64).reverse) = .ok j.networkTarget

/-- What jobs are over a whole connection and at its next act. -/
structure Snapshots (lib : Foreign κ) (acts : List (Act κ)) (s : Session κ) : Prop where
  none : (∀ a ∈ acts, a.activates = none) → s.current = none
  current : ∀ before a after id time, acts = before ++ a :: after →
    a.activates = some (id, time) → (∀ b ∈ after, b.activates = Option.none) →
    ∃ j, s.current = some j ∧ Exact (before ++ [a]) id time j
  activated : ∀ a out s' id time, s.act lib a = .ok (out, s') → a.activates = some (id, time) →
    ∃ stored, s'.jobs.lookup id = some stored ∧ stored.future = false ∧
      s'.current = some stored.job ∧ Exact (acts ++ [a]) id time stored.job
  kept : ∀ a out s', s.act lib a = .ok (out, s') → a.activates = Option.none →
    s'.current = s.current ∧
      ∀ id stored, s.jobs.lookup id = some stored → s'.jobs.lookup id = some stored
  stored : ∀ a out s' id stored stored', s.act lib a = .ok (out, s') →
    s.jobs.lookup id = some stored → stored.future = false → s'.jobs.lookup id = some stored' →
    stored' = stored ∨ ∃ channel hash ntime nbits, a = .message (.prevHash channel id hash ntime nbits)

/-- The smaller of two targets is the smaller number. -/
theorem beNat_minHash (a b : Hash) :
    beNat (minHash a b).toList = min (beNat a.toList) (beNat b.toList) := by
  have hlength : b.toList.length = a.toList.length := by simp
  unfold minHash
  split
  · rename_i hlt
    rw [lt_iff_beNat_lt hlength] at hlt
    omega
  · rename_i hle
    rw [lt_iff_beNat_lt hlength] at hle
    omega

theorem beNat_maximum : beNat maximum.toList = 2 ^ 224 - 1 := by
  decide +kernel

private theorem exact_activated {acts : List (Act κ)} {before : Session κ} {wire : NewJob}
    {id time : UInt32} {job : Job} (hholds : Holds acts s) (hphase : s.phase = 3)
    (hjob : Activated before wire time job) (hready : s.havePrevious = true)
    (hwire : lastSet (Act.newJob? id) acts = some wire ∧ wire.job = id)
    (hprevious : before.previous = s.previous) (hextra : before.extra = s.extra)
    (htarget : before.target = s.target) (hnetwork : before.networkTarget = s.networkTarget) :
    Exact acts id time job := by
  rw [hholds.havePrevious] at hready
  obtain ⟨⟨named, hash, ntime, nbits⟩, hlast⟩ := Option.isSome_iff_exists.mp hready
  obtain ⟨hhash, hbits⟩ := hholds.previous named hash ntime nbits hlast
  obtain ⟨extranonce, hextranonce, hzeros, -⟩ := hholds.extra hphase
  refine ⟨wire, named, hash, ntime, nbits, s.target, extranonce, hwire.1, hlast,
    hholds.target hphase, hextranonce, hjob.wireJob.trans hwire.2, hjob.time32, ?_, ?_, ?_⟩
  · rw [← hzeros, ← hhash, ← hextra, ← hprevious]
    exact hjob.header
  · rw [hjob.target, beNat_minHash, beNat_maximum, htarget]
  · rw [hjob.networkTarget, hnetwork]
    exact hbits

theorem activated_exact {acts : List (Act κ)} {id time : UInt32} (hholds : Holds acts s)
    (hacted : Acted s a s') (ha : a.activates = some (id, time)) :
    ∃ stored, s'.jobs.lookup id = some stored ∧ stored.future = false ∧
      s'.current = some stored.job ∧ Exact (acts ++ [a]) id time stored.job := by
  have hafter := hholds.acted hacted
  cases hacted with
  | silent a s' hsilent hkept hphase =>
      rw [(Act.silent_readings hsilent).2.2.2.2] at ha
      cases ha
  | opened request channel group target extranonce hphase hlength => cases ha
  | targeted channel target hphase => cases ha
  | stored m hphase hroom hfresh hntime =>
      rw [Act.activates, hntime] at ha
      cases ha
  | announced m now job hphase hroom hfresh hntime hjob =>
      rw [Act.activates, hntime] at ha
      cases ha
      have hlookup := AList.lookup_insert (a := m.job) (b := Stored.mk m job false) s.jobs
      refine ⟨_, hlookup, rfl, rfl, ?_⟩
      exact exact_activated hafter hphase hjob hjob.ready (hafter.wire _ _ hlookup) rfl rfl rfl rfl
  | renewed channel named ntime nbits hash networkTarget selected job hphase hselected hnetwork
      hjob =>
      cases ha
      have hlookup := AList.lookup_insert (a := id) (b := Stored.mk selected.wire job false)
        (∅ : AList fun _ : UInt32 => Stored)
      have hwire := hafter.wire _ _ hlookup
      refine ⟨_, hlookup, rfl, rfl, ?_⟩
      exact exact_activated hafter hphase hjob rfl hwire rfl rfl rfl rfl

/-- An act that activates nothing leaves the current job and every stored one
alone. -/
theorem kept_acted (hacted : Acted s a s') (ha : a.activates = none) :
    s'.current = s.current ∧
      ∀ id stored, s.jobs.lookup id = some stored → s'.jobs.lookup id = some stored := by
  cases hacted with
  | silent a s' hsilent hkept hphase =>
      rw [hkept.jobs]
      exact ⟨hkept.current, fun _ _ hlookup => hlookup⟩
  | opened request channel group target extranonce hphase hlength =>
      exact ⟨rfl, fun _ _ hlookup => hlookup⟩
  | targeted channel target hphase => exact ⟨rfl, fun _ _ hlookup => hlookup⟩
  | stored m hphase hroom hfresh hntime =>
      refine ⟨rfl, ?_⟩
      intro id stored hlookup
      have hid : id ≠ m.job := by
        rintro rfl
        rw [AList.lookup_eq_none.mpr hfresh] at hlookup
        cases hlookup
      rw [AList.lookup_insert_ne hid]
      exact hlookup
  | announced m now job hphase hroom hfresh hntime hjob =>
      rw [Act.activates, hntime] at ha
      cases ha
  | renewed channel named ntime nbits hash networkTarget selected job hphase hselected hnetwork
      hjob => cases ha

/-- A job that has been activated changes only when a previous hash names it. -/
theorem stored_acted {id : UInt32} {stored stored' : Stored} (hacted : Acted s a s')
    (hbefore : s.jobs.lookup id = some stored) (hafter : s'.jobs.lookup id = some stored') :
    stored' = stored ∨
      ∃ channel hash ntime nbits, a = .message (.prevHash channel id hash ntime nbits) := by
  cases ha : a.activates with
  | none =>
      have hkept := (kept_acted hacted ha).2 id stored hbefore
      rw [hkept] at hafter
      exact Or.inl (Option.some.inj hafter).symm
  | some activation =>
      cases hacted with
      | silent a s' hsilent hkept hphase =>
          rw [(Act.silent_readings hsilent).2.2.2.2] at ha
          cases ha
      | opened request channel group target extranonce hphase hlength => cases ha
      | targeted channel target hphase => cases ha
      | stored m hphase hroom hfresh hntime =>
          rw [Act.activates, hntime] at ha
          cases ha
      | announced m now job hphase hroom hfresh hntime hjob =>
          rcases lookup_insert_cases hafter with ⟨rfl, -⟩ | ⟨-, hsame⟩
          · rw [AList.lookup_eq_none.mpr hfresh] at hbefore
            cases hbefore
          · rw [hbefore] at hsame
            exact Or.inl (Option.some.inj hsame).symm
      | renewed channel named ntime nbits hash networkTarget selected job hphase hselected hnetwork
          hjob =>
          rcases lookup_insert_cases hafter with ⟨rfl, -⟩ | ⟨-, hnone⟩
          · exact Or.inr ⟨channel, hash, ntime, nbits, rfl⟩
          · cases hnone

private theorem current_of_history {first : Session κ} {acts : List (Act κ)}
    {events : List (List Json)} (h : history (act lib) first acts = .ok (events, s))
    (hnone : ∀ a ∈ acts, a.activates = none) : s.current = first.current := by
  revert hnone
  refine history_induction
    (motive := fun acts _ s => (∀ a ∈ acts, a.activates = none) → s.current = first.current) h
    (fun _ => rfl) ?_
  intro acts events s a out s' ih hstep hnone
  rw [(kept_acted (acted_of_ok hstep) (hnone a (by simp))).1]
  exact ih fun b hb => hnone b (List.mem_append_left _ hb)

/-- Jobs are exact snapshots: whatever the order of messages, an activated job is
made of what was set before it, the current job is the last one activated, and
a stored job changes only through its own activation by a previous hash. -/
theorem jobs_are_snapshots {state : κ} {written : Bytes} {host user : Text} {port : UInt16}
    {rate : UInt32} {acts : List (Act κ)} {events : List (List Json)}
    (h : history (act lib) (start state written host port user rate) acts = .ok (events, s)) :
    Snapshots lib acts s := by
  have hholds := holds_of_history h
  refine ⟨?_, ?_, ?_, ?_, ?_⟩
  · intro hnone
    rw [current_of_history h hnone]
    rfl
  · rintro before a after id time rfl ha hafter
    obtain ⟨earlier, middle, later, hmiddle, hlast, -⟩ := history_append.mp h
    obtain ⟨out, next, rest, hstep, hrest, -⟩ := history_cons.mp hlast
    obtain ⟨stored, -, -, hcurrent, hexact⟩ :=
      activated_exact (holds_of_history hmiddle) (acted_of_ok hstep) ha
    refine ⟨stored.job, ?_, hexact⟩
    rw [current_of_history hrest hafter, hcurrent]
  · intro a out s' id time hstep ha
    exact activated_exact hholds (acted_of_ok hstep) ha
  · intro a out s' hstep ha
    exact kept_acted (acted_of_ok hstep) ha
  · intro a out s' id stored stored' hstep hbefore _ hafter
    exact stored_acted (acted_of_ok hstep) hbefore hafter

theorem jobs_are_snapshots_sample : ∃ events s j,
    history (act sampleForeign) sampleStart sampleActs = .ok (events, s) ∧ s.current = some j ∧
      Snapshots sampleForeign sampleActs s := by
  obtain ⟨events, s, j, hrun, hj, -⟩ := sample_acts
  exact ⟨events, s, j, hrun, hj, jobs_are_snapshots hrun⟩

end Session

end Supryolo.Sv2
