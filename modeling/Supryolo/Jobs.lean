import Supryolo.Session

/-!
Jobs over a whole connection. Both protocols number the jobs they activate; a
job stands as long as the session still holds it under its id with its number.
Whatever messages come in between, the header of a job that stands is the one
the pool rebuilds: from what it notified (SV1), or from the present previous
hash and the stored wire job (SV2).
-/

namespace Supryolo

open Loops

/-- A copy of the job with the time of a reservation. -/
def Job.roll (j : Job) (time : UInt32) : Job :=
  { j with
    time32 := time, work := { j.work with header := storeLe j.work.header 40 time.toUInt64 } }

/-- Only the time and the header differ. -/
theorem Job.roll_same (j : Job) (time : UInt32) :
    (j.roll time).generation = j.generation ∧ (j.roll time).epoch = j.epoch ∧
      (j.roll time).channel = j.channel ∧ (j.roll time).wireJob = j.wireJob ∧
      (j.roll time).sv2 = j.sv2 ∧ (j.roll time).version = j.version ∧
      (j.roll time).work.target = j.work.target := by
  unfold Job.roll
  exact ⟨rfl, rfl, rfl, rfl, rfl, rfl, rfl⟩

namespace Sv2.Session

variable {κ : Type} {lib : Foreign κ} {s s' : Session κ}

/-- What jobs are made of. -/
structure SameWork (s s' : Session κ) : Prop where
  generation : s'.generation = s.generation
  epoch : s'.epoch = s.epoch
  current : s'.current = s.current
  jobs : s'.jobs = s.jobs

/-- The effect of a message on the jobs. -/
inductive JobEffect (s s' : Session κ) : Prop
  | opening (hphase : s.phase ≠ 3) (hsame : SameWork s s')
  | quiet (hphase : s'.phase = s.phase) (hsame : SameWork s s') (hprevious : s'.previous = s.previous)
      (hextra : s'.extra = s.extra) (hchannel : s'.channel = s.channel)
  | stored (wire : NewJob) (hphase : s.phase = 3) (hphase' : s'.phase = 3)
      (hfresh : wire.job ∉ s.jobs)
      (hjobs : s'.jobs = s.jobs.insert wire.job { wire := wire, future := true })
      (hgeneration : s'.generation = s.generation) (hepoch : s'.epoch = s.epoch)
      (hcurrent : s'.current = s.current) (hprevious : s'.previous = s.previous)
      (hextra : s'.extra = s.extra) (hchannel : s'.channel = s.channel)
  | activated (stored : Stored) (key : UInt32) (jobs : AList fun _ : UInt32 => Stored)
      (hphase : s.phase = 3) (hphase' : s'.phase = 3) (hjobs : s'.jobs = jobs.insert key stored)
      (hkept : (jobs = s.jobs ∧ key ∉ s.jobs ∧ key = stored.job.wireJob ∧
          s'.previous = s.previous ∧ s'.epoch = s.epoch) ∨ (jobs = ∅ ∧ s'.epoch = s.epoch + 1))
      (hgeneration : s'.generation = s.generation + 1)
      (hcurrent : s'.current = some stored.job) (hjob : stored.job.generation = s'.generation)
      (hepoch : stored.job.epoch = s'.epoch) (hsv2 : stored.job.sv2 = true)
      (hheader : standardWork s'.previous stored.wire.root s'.extra stored.job.time32 =
        .ok stored.job.work.header)
      (hextra : s'.extra = s.extra) (hchannel : s'.channel = s.channel)

theorem apply_jobEffect {m : Message} {out : List Json} (h : s.apply lib m = .ok (out, s')) :
    JobEffect s s' := by
  cases applied_of_ok h with
  | greeted version flags noise written hphase => exact .opening (by omega) ⟨rfl, rfl, rfl, rfl⟩
  | opened request channel group target extranonce hphase =>
      exact .opening (by omega) ⟨rfl, rfl, rfl, rfl⟩
  | stored m hphase hroom hfresh =>
      exact .stored m hphase hphase hfresh rfl rfl rfl rfl rfl rfl rfl
  | announced m time job hphase hroom hfresh hntime hjob hsv2 =>
      obtain rfl := hjob.time32
      exact .activated _ m.job s.jobs hphase hphase rfl
        (Or.inl ⟨rfl, hfresh, hjob.wireJob.symm, rfl, rfl⟩) rfl rfl hjob.generation hjob.epoch hsv2
        hjob.header rfl rfl
  | renewed channel id ntime nbits hash networkTarget selected job hphase hlookup hnetwork hjob
      hsv2 =>
      obtain rfl := hjob.time32
      exact .activated _ id ∅ hphase hphase rfl (Or.inr ⟨rfl, rfl⟩) rfl rfl hjob.generation
        hjob.epoch hsv2 hjob.header rfl rfl
  | targeted => exact .quiet rfl ⟨rfl, rfl, rfl, rfl⟩ rfl rfl rfl
  | accepted => exact .quiet rfl ⟨rfl, rfl, rfl, rfl⟩ rfl rfl rfl
  | rejected => exact .quiet rfl ⟨rfl, rfl, rfl, rfl⟩ rfl rfl rfl

theorem JobEffect.counts (h : JobEffect s s') : Counts s s' := by
  cases h with
  | opening hphase hsame => exact .of_same hsame.generation hsame.epoch hsame.jobs
  | quiet hphase hsame => exact .of_same hsame.generation hsame.epoch hsame.jobs
  | stored wire hphase hphase' hfresh hjobs hgeneration hepoch =>
      exact .of_stored hgeneration hepoch hjobs rfl
  | activated stored key jobs hphase hphase' hjobs hkept hgeneration hcurrent hjob =>
      refine .of_activated hgeneration ?_ hjobs ?_ (hjob.trans hgeneration)
      · rcases hkept with ⟨-, -, -, -, hsame⟩ | ⟨-, hnext⟩
        · exact Or.inl hsame
        · exact Or.inr hnext
      · rcases hkept with ⟨hsame, -⟩ | ⟨hempty, -⟩
        · exact Or.inl hsame
        · exact Or.inr hempty

/-- Only `submit` moves the last sequence number. -/
theorem apply_lastSent {m : Message} {out : List Json} (h : s.apply lib m = .ok (out, s')) :
    s'.lastSent = s.lastSent := by
  cases applied_of_ok h with
  | _ => rfl

theorem receive_lastSent {bytes : Bytes} {out : List Json}
    (h : s.receive lib bytes = .ok (out, s')) : s'.lastSent = s.lastSent := by
  refine receive_induction (motive := fun _ next => next.lastSent = s.lastSent) h ?_ ?_
  · intro noise written handshake phase hphase
    rfl
  · intro out s₁ m events s₂ hbefore happly
    exact (apply_lastSent happly).trans hbefore

/-- A session that is not open yet has no jobs. -/
def JobsOpen (s : Session κ) : Prop := s.phase ≠ 3 → s.jobs = ∅

/-- A job this session has activated, possibly with its time rolled: while it
stands, its header is the work of the present previous hash. -/
structure Knows (s : Session κ) (j : Job) : Prop where
  older : s.Older j
  header : s.Stands j → ∃ stored, s.jobs.lookup j.wireJob = some stored ∧
    standardWork s.previous stored.wire.root s.extra j.time32 = .ok j.work.header

theorem Knows.generation {j : Job} (h : s.Knows j) : j.generation ≤ s.generation :=
  h.older.generation

theorem JobsOpen.apply {m : Message} {out : List Json} (hopen : s.JobsOpen)
    (h : s.apply lib m = .ok (out, s')) : s'.JobsOpen := by
  intro hphase
  cases apply_jobEffect h with
  | opening hbefore hsame => rw [hsame.jobs, hopen hbefore]
  | quiet hsame hwork => rw [hwork.jobs, hopen (hsame ▸ hphase)]
  | stored wire _ hphase' => exact absurd hphase' hphase
  | activated stored key jobs _ hphase' => exact absurd hphase' hphase

theorem Knows.apply {m : Message} {out : List Json} {j : Job} (hopen : s.JobsOpen)
    (hknows : s.Knows j) (h : s.apply lib m = .ok (out, s')) : s'.Knows j := by
  have heffect := apply_jobEffect h
  refine ⟨hknows.older.counts heffect.counts, ?_⟩
  rintro ⟨entry, hlookup, hstands⟩
  cases heffect with
  | opening hbefore hsame =>
      rw [hsame.jobs, hopen hbefore, AList.lookup_empty] at hlookup
      cases hlookup
  | quiet hphase hsame hprevious hextra hchannel =>
      rw [hphase, hchannel, hsame.epoch] at hstands
      rw [hsame.jobs] at hlookup
      rw [hprevious, hextra, hsame.jobs]
      exact hknows.header ⟨entry, hlookup, hstands⟩
  | stored wire hphase hphase' hfresh hjobs hgeneration hepoch hcurrent hprevious hextra hchannel =>
      obtain ⟨-, hstands⟩ := hstands
      rw [hchannel, hepoch] at hstands
      rw [hprevious, hextra, hjobs]
      rw [hjobs] at hlookup
      by_cases hkey : j.wireJob = wire.job
      · rw [hkey, AList.lookup_insert] at hlookup
        cases hlookup
        simp at hstands
      · rw [AList.lookup_insert_ne hkey] at hlookup ⊢
        exact hknows.header ⟨entry, hlookup, hphase, hstands⟩
  | activated stored key jobs hphase hphase' hjobs hkept hgeneration hcurrent hjob hepoch hsv2
      hheader hextra hchannel =>
      have hold := hknows.generation
      obtain ⟨-, hsent, hsame, hactive, hnumber⟩ := hstands
      rw [hjobs] at hlookup
      -- A job of an earlier generation is not the one just activated.
      have hkey : j.wireJob ≠ key := by
        intro hkey
        rw [hkey, AList.lookup_insert] at hlookup
        cases hlookup
        omega
      rw [AList.lookup_insert_ne hkey] at hlookup
      rcases hkept with ⟨rfl, -, -, hprevious, hepoch'⟩ | ⟨rfl, -⟩
      · rw [hchannel] at hsent
        rw [hepoch'] at hsame
        rw [hprevious, hextra, hjobs, AList.lookup_insert_ne hkey]
        exact hknows.header ⟨entry, hlookup, hphase, hsent, hsame, hactive, hnumber⟩
      · rw [AList.lookup_empty] at hlookup
        cases hlookup

theorem valid_roll (s : Session κ) (j : Job) (time : UInt32) : s.valid (j.roll time) = s.valid j := by
  obtain ⟨hgeneration, hepoch, hchannel, hwire, -⟩ := j.roll_same time
  rw [valid, valid, hgeneration, hepoch, hchannel, hwire]

theorem stands_roll {j : Job} {time : UInt32} : s.Stands (j.roll time) ↔ s.Stands j := by
  obtain ⟨hgeneration, hepoch, hchannel, hwire, -⟩ := j.roll_same time
  rw [Stands, Stands, hgeneration, hepoch, hchannel, hwire]

theorem Older.roll {j : Job} (h : s.Older j) (time : UInt32) : s.Older (j.roll time) := by
  obtain ⟨hgeneration, hepoch, -⟩ := j.roll_same time
  refine ⟨?_, ?_, ?_, ?_⟩
  · rw [hgeneration]
    exact h.positive
  · rw [hgeneration]
    exact h.generation
  · rw [hepoch]
    exact h.epoch
  · rw [hgeneration, hepoch]
    exact h.lag

theorem Knows.roll {j : Job} (h : s.Knows j) (time : UInt32) : s.Knows (j.roll time) := by
  obtain ⟨-, -, -, hwire, -⟩ := j.roll_same time
  refine ⟨h.older.roll time, ?_⟩
  intro hstands
  obtain ⟨stored, hlookup, hheader⟩ := h.header (stands_roll.mp hstands)
  rw [hwire]
  exact ⟨stored, hlookup, standardWork_roll hheader time⟩

/-- The current job is known, and it is the latest. -/
structure Sound (s : Session κ) : Prop where
  jobsOpen : s.JobsOpen
  numbered : s.Numbered
  current : ∀ j, s.current = some j → s.Knows j ∧ j.generation = s.generation ∧ j.sv2 = true

theorem sound_start (state : κ) (first : Bytes) (host : Text) (port : UInt16) (user : Text)
    (rate : UInt32) : (start state first host port user rate).Sound :=
  ⟨fun _ => rfl, fun _ _ hlookup => (by cases hlookup), fun _ hcurrent => (by cases hcurrent)⟩

private theorem knows_activated {stored : Stored} {key : UInt32}
    {jobs : AList fun _ : UInt32 => Stored} (hjobs : s.jobs = jobs.insert key stored)
    (hkey : jobs = ∅ ∨ key = stored.job.wireJob) (hpositive : 0 < s.generation)
    (hgeneration : stored.job.generation = s.generation) (hepoch : stored.job.epoch = s.epoch)
    (hheader : standardWork s.previous stored.wire.root s.extra stored.job.time32 =
      .ok stored.job.work.header) : s.Knows stored.job := by
  refine ⟨⟨by omega, hgeneration.le, hepoch.le, by omega⟩, ?_⟩
  rintro ⟨entry, hlookup, -⟩
  have hsame : stored.job.wireJob = key := by
    rcases hkey with rfl | hkey
    · by_contra hne
      rw [hjobs, AList.lookup_insert_ne hne, AList.lookup_empty] at hlookup
      cases hlookup
    · exact hkey.symm
  refine ⟨stored, ?_, hheader⟩
  rw [hjobs, hsame, AList.lookup_insert]

theorem Sound.apply {m : Message} {out : List Json} (hsound : s.Sound)
    (h : s.apply lib m = .ok (out, s')) : s'.Sound := by
  have heffect := apply_jobEffect h
  refine ⟨hsound.jobsOpen.apply h, hsound.numbered.counts heffect.counts, ?_⟩
  intro j hj
  have hsame_current (hgeneration : s'.generation = s.generation)
      (hcurrent : s'.current = s.current) :
      s'.Knows j ∧ j.generation = s'.generation ∧ j.sv2 = true := by
    rw [hcurrent] at hj
    obtain ⟨hknows, hlatest, hsv2⟩ := hsound.current j hj
    exact ⟨hknows.apply hsound.jobsOpen h, hlatest.trans hgeneration.symm, hsv2⟩
  cases heffect with
  | opening hphase hsame => exact hsame_current hsame.generation hsame.current
  | quiet hphase hsame => exact hsame_current hsame.generation hsame.current
  | stored wire hphase hphase' hfresh hjobs hgeneration hepoch hcurrent =>
      exact hsame_current hgeneration hcurrent
  | activated stored key jobs hphase hphase' hjobs hkept hgeneration hcurrent hjob hepoch hsv2
      hheader =>
      rw [hcurrent] at hj
      cases hj
      refine ⟨knows_activated hjobs ?_ (by omega) hjob hepoch hheader, hjob, hsv2⟩
      rcases hkept with ⟨-, -, hkey, -⟩ | ⟨hempty, -⟩
      · exact Or.inr hkey
      · exact Or.inl hempty

/-- The current job changes only together with the generation. -/
structure Advances (s s' : Session κ) : Prop where
  generation : s.generation ≤ s'.generation
  current : s'.generation = s.generation → s'.current = s.current

theorem Advances.apply {m : Message} {out : List Json} (h : s.apply lib m = .ok (out, s')) :
    Advances s s' := by
  cases apply_jobEffect h with
  | opening hphase hsame => exact ⟨hsame.generation.ge, fun _ => hsame.current⟩
  | quiet hphase hsame => exact ⟨hsame.generation.ge, fun _ => hsame.current⟩
  | stored wire hphase hphase' hfresh hjobs hgeneration hepoch hcurrent =>
      exact ⟨hgeneration.ge, fun _ => hcurrent⟩
  | activated stored key jobs hphase hphase' hjobs hkept hgeneration =>
      exact ⟨by omega, fun hsame => by omega⟩

theorem Advances.trans {s₁ s₂ s₃ : Session κ} (h : Advances s₁ s₂) (h' : Advances s₂ s₃) :
    Advances s₁ s₃ := by
  have hle := h.generation
  have hle' := h'.generation
  refine ⟨hle.trans hle', ?_⟩
  intro hsame
  rw [h'.current (by omega), h.current (by omega)]

/-- Moving the transport on does not touch the jobs. -/
private theorem sound_transport (hsound : s.Sound) {phase : Nat}
    (hphase : phase = s.phase ∨ (s.phase = 0 ∧ phase = 1)) (noise : Noise κ)
    (written handshake : Bytes) :
    let moved := { s with noise := noise, written := written, handshake := handshake, phase := phase }
    moved.Sound ∧ (∀ j, s.Knows j → moved.Knows j) := by
  intro moved
  have hopen : moved.JobsOpen := by
    intro hother
    refine hsound.jobsOpen ?_
    rcases hphase with rfl | ⟨hzero, -⟩
    · exact hother
    · omega
  have hcounts : Counts s moved := .of_same rfl rfl rfl
  have hknows (j : Job) (h : s.Knows j) : moved.Knows j := by
    refine ⟨h.older.counts hcounts, ?_⟩
    rintro ⟨stored, hlookup, hthree, hrest⟩
    have hsame : s.phase = 3 := by
      rcases hphase with rfl | ⟨-, hone⟩
      · exact hthree
      · have hthree' : phase = 3 := hthree
        omega
    exact h.header ⟨stored, hlookup, hsame, hrest⟩
  refine ⟨⟨hopen, hsound.numbered.counts hcounts, ?_⟩, hknows⟩
  intro j hj
  obtain ⟨hj', hrest⟩ := hsound.current j hj
  exact ⟨hknows j hj', hrest⟩

/-- A read keeps every job known, and jobs only get newer. -/
theorem receive_jobs {bytes : Bytes} {out : List Json} (hsound : s.Sound)
    (h : s.receive lib bytes = .ok (out, s')) :
    s'.Sound ∧ (∀ j, s.Knows j → s'.Knows j) ∧ Advances s s' := by
  refine receive_induction
    (motive := fun _ next => next.Sound ∧ (∀ j, s.Knows j → next.Knows j) ∧ Advances s next) h ?_ ?_
  · intro noise written handshake phase hphase
    obtain ⟨hmoved, hknows⟩ := sound_transport hsound hphase noise written handshake
    exact ⟨hmoved, hknows, le_refl _, fun _ => rfl⟩
  · rintro out s₁ m events s₂ ⟨hbefore, hknows, hadvances⟩ happly
    exact ⟨hbefore.apply happly, fun j hj => (hknows j hj).apply hbefore.jobsOpen happly,
      hadvances.trans (.apply happly)⟩

theorem submit_jobs {j : Job} {nonce : UInt64} {sequence : UInt32} (hsound : s.Sound)
    (h : s.submit lib j nonce sequence = .ok s') :
    s'.Sound ∧ (∀ j, s.Knows j → s'.Knows j) ∧ Advances s s' := by
  obtain ⟨-, noise, written, rfl⟩ := submit_ok h
  have hknows (j : Job) (h : s.Knows j) : Knows { s with
      pending := s.pending ++ [sequence], lastSent := sequence, noise := noise
      written := written } j := ⟨h.older.counts (.of_same rfl rfl rfl), h.header⟩
  refine ⟨⟨hsound.jobsOpen, hsound.numbered.counts (.of_same rfl rfl rfl), ?_⟩, hknows, le_refl _,
    fun _ => rfl⟩
  intro j' hj'
  obtain ⟨hj, hrest⟩ := hsound.current j' hj'
  exact ⟨hknows j' hj, hrest⟩

end Sv2.Session

theorem StratumState.Older.roll {s : StratumState} {j : Job} (h : s.Older j) (time : UInt32) :
    s.Older (j.roll time) := by
  obtain ⟨hgeneration, hepoch, -⟩ := j.roll_same time
  refine ⟨?_, ?_, ?_, ?_⟩
  · rw [hgeneration]
    exact h.positive
  · rw [hgeneration]
    exact h.generation
  · rw [hepoch]
    exact h.epoch
  · rw [hgeneration, hepoch]
    exact h.lag

/-- What the pool keeps of a job it notified. -/
structure PoolJob where
  prev : Text
  c1 : Text
  c2 : Text
  en1 : Text

/-- What the pool knows from the messages it has sent. -/
structure PoolView where
  en1 : Text := []
  jobs : AList fun _ : Text => PoolJob := ∅

namespace PoolView

def extranonce (v : PoolView) : List Json → PoolView
  | .string e :: _ => { v with en1 := e }
  | _ => v

def notify (v : PoolView) : List Json → PoolView
  | .string id :: .string prev :: .string c1 :: .string c2 :: _ =>
      { v with jobs := v.jobs.insert id ⟨prev, c1, c2, v.en1⟩ }
  | _ => v

def request (v : PoolView) (method : Text) (p : List Json) : PoolView :=
  if method = "mining.set_extranonce".toList then v.extranonce p
  else if method = "mining.notify".toList then v.notify p
  else v

/-- The reply to the subscription has the extranonce in the second place. -/
def reply (v : PoolView) (msg : Json) : PoolView :=
  match msg.integerMember? "id".toList, msg.member? "result".toList with
  | some 1, some (.array (_ :: rest)) => v.extranonce rest
  | _, _ => v

def send (v : PoolView) (msg : Json) : PoolView :=
  match msg.member? "method".toList, msg.member? "params".toList with
  | some (.string method), some (.array p) => v.request method p
  | some _, _ => v
  | none, _ => v.reply msg

end PoolView

namespace StratumState

variable {v : PoolView} {s s' : StratumState}

/-- A job this state has announced: while its id stands for it, its header is
the one the pool rebuilds for that id. -/
structure Knows (v : PoolView) (s : StratumState) (j : Job) : Prop where
  older : s.Older j
  announced : j.id ∈ v.jobs
  made : ∃ kept : PoolJob,
    siaWork kept.prev kept.c1 kept.c2 kept.en1 j.en2 j.ntime = .ok j.work.header
  header : s.Stands j → ∃ kept, v.jobs.lookup j.id = some kept ∧
    siaWork kept.prev kept.c1 kept.c2 kept.en1 j.en2 j.ntime = .ok j.work.header

theorem Knows.generation {j : Job} (h : Knows v s j) : j.generation ≤ s.generation :=
  h.older.generation

/-- The pool and the miner agree on the extranonce; the current job is known,
and it is the latest. -/
structure Sound (v : PoolView) (s : StratumState) : Prop where
  en1 : v.en1 = s.en1
  numbered : s.Numbered
  current : ∀ j, s.current = some j → Knows v s j ∧ j.generation = s.generation ∧
    j.sv2 = false ∧ 0 < j.generation ∧ j.en2 = extraNonce j.generation

theorem Knows.of_sameJobs {msg : Json} {j : Job} (h : Knows v s j)
    (hreceive : s.receive msg = .ok (none, s')) {v' : PoolView} (hjobs : v'.jobs = v.jobs) :
    Knows v' s' j := by
  have hsame := sameJobs_of_none (received_of_ok hreceive)
  refine ⟨h.older.receive hreceive, hjobs ▸ h.announced, h.made, ?_⟩
  rw [Stands, hsame.epoch, hsame.validIds, hjobs]
  exact h.header

private theorem send_other {msg : Json} {method : Text}
    (hmethod : msg.member? "method".toList = some (.string method))
    (hother : method ≠ "mining.notify".toList ∧ method ≠ "mining.set_extranonce".toList) :
    v.send msg = v := by
  have hrequest (p : List Json) : v.request method p = v := by
    rw [PoolView.request, if_neg hother.2, if_neg hother.1]
  unfold PoolView.send
  rw [hmethod]
  cases hparams : msg.member? "params".toList with
  | none => rfl
  | some params =>
      cases params with
      | array p => exact hrequest p
      | _ => rfl

private theorem send_reply {msg : Json} (hmethod : msg.member? "method".toList = none)
    (hid : msg.integerMember? "id".toList ≠ some 1) : v.send msg = v := by
  simp only [PoolView.send, hmethod, PoolView.reply]
  split
  · rename_i hone _
    exact absurd hone hid
  · rfl

/-- A message that notifies nothing leaves the pool's jobs alone, and the
extranonce stays the same on both sides. -/
theorem send_of_none {msg : Json} (h : Received s msg none s') :
    (v.send msg).jobs = v.jobs ∧ (v.en1 = s.en1 → (v.send msg).en1 = s'.en1) := by
  cases h with
  | extranonce size text hmethod hparams =>
      have hsend : v.send msg = v.extranonce [.string text, size] := by
        simp only [PoolView.send, hmethod, hparams, PoolView.request, if_true]
      rw [hsend]
      exact ⟨rfl, fun _ => rfl⟩
  | subscribed first size text hmethod hid hresult =>
      have hsend : v.send msg = v.extranonce [.string text, size] := by
        simp only [PoolView.send, hmethod, PoolView.reply, hid, hresult]
      rw [hsend]
      exact ⟨rfl, fun _ => rfl⟩
  | difficulty number text target hmethod hparams hnumber htarget =>
      rw [send_other hmethod ⟨by decide, by decide⟩]
      exact ⟨rfl, fun hen1 => hen1⟩
  | other method hmethod hother =>
      rw [send_other hmethod ⟨hother.2.2, hother.2.1⟩]
      exact ⟨rfl, fun hen1 => hen1⟩
  | authorized hmethod hid hresult =>
      rw [send_reply hmethod (by rw [hid]; decide)]
      exact ⟨rfl, fun hen1 => hen1⟩
  | replied hmethod hid =>
      rw [send_reply hmethod hid.1]
      exact ⟨rfl, fun hen1 => hen1⟩

/-- Both sides take a notification alike. -/
theorem send_of_notified {msg : Json} {p : List Json} {job : Job}
    (hmethod : msg.member? "method".toList = some (.string "mining.notify".toList))
    (hparams : msg.member? "params".toList = some (.array p)) (n : Notified s p job) :
    v.send msg = { v with jobs := v.jobs.insert job.id ⟨n.prev, n.c1, n.c2, v.en1⟩ } := by
  obtain ⟨branch, version, hp⟩ := n.params
  have hother : ¬ "mining.notify".toList = "mining.set_extranonce".toList := by decide
  simp only [PoolView.send, hmethod, hparams, PoolView.request, if_neg hother, if_true, hp,
    PoolView.notify]

/-- A job that is notified replaces whatever its id stood for. -/
theorem Knows.notified {msg : Json} {p : List Json} {job j : Job}
    (hmethod : msg.member? "method".toList = some (.string "mining.notify".toList))
    (hparams : msg.member? "params".toList = some (.array p))
    (hnotify : s.notify p = .ok (job, s')) (h : Knows v s j) : Knows (v.send msg) s' j := by
  have hold := h.older.notify hnotify
  obtain ⟨n, rfl⟩ := notify_ok hnotify
  refine ⟨hold, ?_, h.made, ?_⟩
  · rw [send_of_notified hmethod hparams n]
    exact AList.mem_insert _ |>.mpr (Or.inr h.announced)
  have hgeneration := h.generation
  have hepoch := h.older.epoch
  have hnext := n.generation
  have hclean := n.epoch
  rintro ⟨hsame, hlookup⟩
  dsimp only at hsame hlookup
  have hid : j.id ≠ job.id := by
    intro hid
    rw [hid, AList.lookup_insert] at hlookup
    have hnumber := Option.some.inj hlookup
    omega
  rw [AList.lookup_insert_ne hid] at hlookup
  rw [send_of_notified hmethod hparams n]
  dsimp only
  rw [AList.lookup_insert_ne hid]
  cases hc : n.clean with
  | true =>
      rw [hc] at hclean
      simp only [if_true] at hclean
      omega
  | false =>
      simp only [hc, Bool.false_eq_true, if_false] at hclean hlookup
      exact h.header ⟨hsame.trans hclean, hlookup⟩

theorem knows_notified {msg : Json} {p : List Json} {job : Job} (hen1 : v.en1 = s.en1)
    (hmethod : msg.member? "method".toList = some (.string "mining.notify".toList))
    (hparams : msg.member? "params".toList = some (.array p))
    (hnotify : s.notify p = .ok (job, s')) : Knows (v.send msg) s' job := by
  have hold := (stands_notify hnotify).2
  obtain ⟨n, rfl⟩ := notify_ok hnotify
  rw [send_of_notified hmethod hparams n, hen1]
  exact ⟨hold, (AList.mem_insert _).mpr (Or.inl rfl), ⟨⟨n.prev, n.c1, n.c2, s.en1⟩, n.header⟩,
    fun _ => ⟨_, AList.lookup_insert _, n.header⟩⟩

/-- Messages keep every job known, and jobs only get newer. -/
theorem receive_jobs {msg : Json} {job : Option Job} (hsound : Sound v s)
    (h : s.receive msg = .ok (job, s')) :
    Sound (v.send msg) s' ∧ (∀ j, Knows v s j → Knows (v.send msg) s' j) ∧
      s.generation ≤ s'.generation ∧ (s'.generation = s.generation → s'.current = s.current) := by
  have hreceived := received_of_ok h
  cases job with
  | none =>
      have hsame := sameJobs_of_none hreceived
      obtain ⟨hjobs, hen1⟩ := send_of_none (v := v) hreceived
      have hknows (j : Job) (hj : Knows v s j) : Knows (v.send msg) s' j :=
        hj.of_sameJobs h hjobs
      refine ⟨⟨hen1 hsound.en1, hsound.numbered.receive h, ?_⟩, hknows, hsame.generation.ge,
        fun _ => hsame.current⟩
      intro j hj
      rw [hsame.current] at hj
      obtain ⟨hj', hlatest, hrest⟩ := hsound.current j hj
      exact ⟨hknows j hj', hlatest.trans hsame.generation.symm, hrest⟩
  | some job =>
      cases hreceived with
      | notified p job s' hmethod hparams hnotify =>
          have hjob := knows_notified hsound.en1 hmethod hparams hnotify
          have hknows (j : Job) (hj : Knows v s j) : Knows (v.send msg) s' j :=
            hj.notified hmethod hparams hnotify
          have hnumbered := hsound.numbered.receive h
          obtain ⟨n, rfl⟩ := notify_ok hnotify
          have hnext := n.generation
          refine ⟨⟨?_, hnumbered, ?_⟩, hknows, by dsimp only; omega, fun hsame => ?_⟩
          · rw [send_of_notified hmethod hparams n]
            exact hsound.en1
          · intro j hj
            cases hj
            exact ⟨hjob, rfl, n.sv1, by omega, n.en2⟩
          · dsimp only at hsame
            omega

end StratumState

end Supryolo
