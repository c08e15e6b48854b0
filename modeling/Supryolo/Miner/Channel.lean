import Supryolo.Activations
import Supryolo.Jobs
import Supryolo.Miner.Iterations

/-!
An SV2 connection message by message. The cipher only pads, so what the pool
sends can be written down. It opens a channel, announces a job and activates it
with a previous hash on which the first nonce is a solution; every later previous
hash activates the job again, under the next generation.
-/

namespace Supryolo.Miner

open Loops Relation Sv2

variable {cfg : Config} {m : Machine cfg Unit} {session : Session Unit} {job : Job}

/-- A frame as the padding cipher encrypts it. -/
def sealed (extension : UInt8) (type : UInt8) (payload : Bytes) : Bytes :=
  [0, extension, type, payload.length.toUInt8, 0, 0] ++ List.replicate 16 0 ++ payload ++
    List.replicate 16 0

/-- A previous hash that activates job 7 of channel 5. -/
def activation (prev : Bytes) : Bytes :=
  sealed 0x80 0x20 ([5, 0, 0, 0, 7, 0, 0, 0] ++ prev ++ [0, 0, 0, 0x60, 0xff, 0xff, 0, 0x1d])

/-- On this hash nonce 0 is a solution of job 7. -/
def luckyPrev : Bytes :=
  List.replicate 16 0 ++ [4] ++ List.replicate 11 0 ++ [0xcd, 0x77, 0xbf, 0x50]

/-- The pool answers the handshake, opens channel 5, announces job 7 and
activates it. -/
def openingStream : Bytes :=
  List.replicate 234 0 ++ sealed 0 0x01 [2, 0, 0, 0, 0, 0] ++
    sealed 0 0x11 ([1, 0, 0, 0, 5, 0, 0, 0] ++ List.replicate 32 255 ++ [4, 0, 0, 0, 0, 0, 0, 0, 0]) ++
    sealed 0x80 0x15 ([5, 0, 0, 0, 7, 0, 0, 0, 0, 0, 0, 0, 0x20] ++ List.replicate 32 0) ++
    activation luckyPrev

/-- Another block has been found. -/
def renewal : Bytes := activation (List.replicate 32 0)

def openingSession : Session Unit := .start () [] "pool".toList 3333 "worker".toList 0x3f800000

/-- The transport between two frames. -/
def resting : Noise Unit := { ready := true, framing := { state := () } }

def isResting (n : Noise Unit) : Bool :=
  n.ready && !n.failed && n.framing.incoming.isNone && n.framing.remaining == 0 && n.input.isEmpty

theorem eq_resting {n : Noise Unit} (h : isResting n = true) : n = resting := by
  obtain ⟨ready, failed, ⟨state, incoming, remaining⟩, input⟩ := n
  simp only [isResting, Bool.and_eq_true, Bool.not_eq_true', Option.isNone_iff_eq_none, beq_iff_eq,
    List.isEmpty_iff] at h
  obtain ⟨⟨⟨⟨rfl, rfl⟩, rfl⟩, rfl⟩, rfl⟩ := h
  rfl

set_option maxRecDepth 4096 in
theorem read_renewal : ∃ frame, resting.receive paddingCipher renewal = .ok ([frame], resting) ∧
    decode frame = .ok (.prevHash 5 7 (Vector.replicate 32 0) 0x60000000 0x1d00ffff) := by
  let frame : Frame := ⟨0x8000, 0x20, [5, 0, 0, 0, 7, 0, 0, 0] ++ List.replicate 32 0 ++
    [0, 0, 0, 0x60, 0xff, 0xff, 0, 0x1d]⟩
  have hcheck : (match resting.receive paddingCipher renewal with
      | .ok (frames, noise) => frames == [frame] && isResting noise
      | .error _ => false) = true := by
    decide +kernel
  cases hreceive : resting.receive paddingCipher renewal with
  | error e =>
      rw [hreceive] at hcheck
      cases hcheck
  | ok result =>
      rw [hreceive] at hcheck
      obtain ⟨hframes, hnoise⟩ := Bool.and_eq_true_iff.mp hcheck
      refine ⟨frame, ?_, rfl⟩
      rw [← beq_iff_eq.mp hframes, ← eq_resting hnoise]

/-- A session that is open and rests takes the renewal. -/
theorem receive_renewal (hnoise : session.noise = resting) (hchannel : session.channel = 5)
    (hrenews : session.Renews 7) : ∃ session' job,
      session.receive sampleForeign renewal = .ok ([promptEvent], session') ∧
        session.Renewed session' 7 job ∧ job.time32 = 0x60000000 := by
  obtain ⟨session', job, hrun, hrenewed, htime⟩ := hrenews.prevHash
    (by decide : ((Vector.replicate 32 0 : Hash).toList.take 6).all (· == 0) = true)
    (⟨_, rfl⟩ : ∃ target, compactTarget (hex (Words.leBytes 4 (0x1d00ffff : UInt32).toUInt64).reverse) =
      .ok target) 0x60000000
  rw [hchannel] at hrun
  refine ⟨session', job, ?_, hrenewed, htime⟩
  have hready : ¬ session.phase = 0 := by rw [hrenews.phase]; decide
  have hsame : { session with noise := resting } = session := by rw [← hnoise]
  obtain ⟨frame, hframes, hdecode⟩ := read_renewal
  rw [Session.receive, if_neg hready, Session.receiveReady, hnoise,
    show sampleForeign.cipher = paddingCipher from rfl, hframes, ok_bind]
  simp only [hsame, Session.receiveFrames, List.foldlM_cons, List.foldlM_nil, hdecode,
    ok_bind, Session.handle, Session.apply, hrun]
  rfl

/-- The state after the events of an SV2 read have been handled. -/
def Machine.attended (m : Machine cfg Unit) (session : Session Unit) (events : List Json) (j : Job) :
    Machine cfg Unit :=
  { m with
    link := .sv2 session, trace := m.trace ++ events.map Event.received
    ledger := events.foldl Ledger.account m.ledger, work := some j, activated := true
    main := .collecting }

/-- The events of a read are handled to the end, and the current job is
published. -/
theorem handle_events (hcurrent : session.current = some job) (hdraining : m.draining = false)
    (events : List Json) (hwork : events = [] → m.work = some job ∧ m.activated = true) :
    ReflTransGen (Step (sampleEnv [])) { m with link := .sv2 session, main := .handling events }
      (m.attended session events job) := by
  induction events generalizing m with
  | nil =>
      obtain ⟨hwork, hactivated⟩ := hwork rfl
      have hattended : m.attended session [] job =
          { m with link := .sv2 session, main := .collecting } := by
        simp [Machine.attended, ← hwork, ← hactivated]
      rw [hattended]
      exact .single (.main (.handled _ rfl))
  | cons event rest ih =>
      let next : Machine cfg Unit :=
        { m with
          link := .sv2 session, trace := m.trace ++ [Event.received event]
          ledger := m.ledger.account event, work := some job, activated := true }
      have hhandle : ({ m with link := .sv2 session, main := .handling (event :: rest) } :
          Machine cfg Unit).handleMessage event = .ok { next with main := .handling (event :: rest) } := by
        unfold Machine.handleMessage Machine.publish
        dsimp only [Link.current]
        rw [if_pos (by simp [hcurrent, hdraining]), hcurrent]
        rfl
      have hattended : next.attended session rest job = m.attended session (event :: rest) job := by
        simp [Machine.attended, next]
      rw [← hattended]
      exact .head (.main (.handle _ _ event rest rfl hhandle)) (ih (m := next) hdraining fun _ => ⟨rfl, rfl⟩)

/-- An iteration that reads a chunk, up to where the shares are collected. -/
theorem iteration_attend {session' : Session Unit} {chunk : Bytes} {events : List Json}
    (hmain : m.main = .head) (hlink : m.link = .sv2 session) (hdraining : m.draining = false)
    (hreceive : session.receive sampleForeign chunk = .ok (events, session'))
    (hcurrent : session'.current = some job)
    (hwork : events = [] → m.work = some job ∧ m.activated = true) :
    ReflTransGen (Step (sampleEnv [])) m (m.attended session' events job) := by
  have hiterate : MainStep (sampleEnv []) m { m with main := .polling } :=
    .iterate m false true false hmain rfl (by simp)
  have hread : m.link.read (sampleEnv []) [chunk] .again = .ok (events, .sv2 session') := by
    rw [hlink]
    exact Link.read_sv2 hreceive
  have hpoll : MainStep (sampleEnv []) { m with main := .polling }
      { m with link := .sv2 session', main := .handling events } :=
    .poll { m with main := .polling } [chunk] .again events _ rfl hread
  exact .head (.main hiterate) (.head (.main hpoll) (handle_events hcurrent hdraining events hwork))

/-- An iteration that submits nothing. -/
theorem iteration_quiet {session' : Session Unit} {chunk : Bytes} {events : List Json}
    (hmain : m.main = .head) (hlink : m.link = .sv2 session) (hdraining : m.draining = false)
    (hfailure : m.failure = "") (hfound : m.found = [])
    (hreceive : session.receive sampleForeign chunk = .ok (events, session'))
    (hcurrent : session'.current = some job)
    (hwork : events = [] → m.work = some job ∧ m.activated = true) :
    ReflTransGen (Step (sampleEnv [])) m { m.attended session' events job with main := .head } := by
  refine (iteration_attend hmain hlink hdraining hreceive hcurrent hwork).trans ?_
  have hcollect : MainStep (sampleEnv []) (m.attended session' events job)
      { m.attended session' events job with main := .submitting [] } := by
    have hstep : MainStep (sampleEnv []) (m.attended session' events job) _ := .collect _ rfl hfailure
    rw [show (m.attended session' events job).found = [] from hfound] at hstep
    have hsame : { m.attended session' events job with main := .submitting [], found := [] } =
        { m.attended session' events job with main := .submitting [] } := by
      simp [Machine.attended, hfound]
    rwa [hsame] at hstep
  exact .head (.main hcollect) (.head (.main (.submitted _ rfl)) (.single (.main (.wait _ rfl))))

/-- The session is open on channel 5, the transport rests, and job 7 is the
current one. -/
structure Holds (session : Session Unit) (job : Job) : Prop where
  noise : session.noise = resting
  channel : session.channel = 5
  renews : session.Renews 7
  current : session.current = some job
  stands : session.Stands job
  sv2 : job.sv2 = true
  time32 : job.time32 = 0x60000000
  generation : job.generation = session.generation

/-- The loop is at its head and the current job is the published work. -/
structure Works (m : Machine cfg Unit) (session : Session Unit) (job : Job) : Prop
    extends Holds session job where
  main : m.main = .head
  link : m.link = .sv2 session
  failure : m.failure = ""
  draining : m.draining = false
  stop : m.stop = false
  work : m.work = some job
  activated : m.activated = true

/-- The pool renews the job while the workers rest. -/
theorem Works.renew (h : Works m session job) (hfound : m.found = []) :
    ∃ (m' : Machine cfg Unit) (session' : Session Unit) (job' : Job),
      ReflTransGen (Step (sampleEnv [])) m m' ∧ Works m' session' job' ∧
      session'.generation = session.generation + 1 ∧ m'.found = [] ∧ m'.workers = m.workers ∧
      m'.trace = m.trace ++ [Event.received promptEvent] ∧
      m'.sharedGeneration = m.sharedGeneration ∧ m'.sharedCursor = m.sharedCursor := by
  obtain ⟨session', job', hreceive, hrenewed, htime⟩ :=
    receive_renewal h.noise h.channel h.renews
  have hsteps := iteration_quiet h.main h.link h.draining h.failure hfound hreceive
    hrenewed.current fun hnone => by cases hnone
  refine ⟨_, session', job', hsteps, ⟨⟨hrenewed.noise.trans h.noise, hrenewed.channel.trans h.channel,
    hrenewed.renews, hrenewed.current, hrenewed.stands, hrenewed.sv2, htime, hrenewed.number⟩, rfl,
    rfl, h.failure, h.draining, h.stop, rfl, rfl⟩, hrenewed.generation, hfound, rfl, rfl, rfl, rfl⟩

/-- Any number of renewals may pass while the workers rest. -/
theorem Works.renew_many (h : Works m session job) (hfound : m.found = []) (n : Nat) :
    ∃ (m' : Machine cfg Unit) (session' : Session Unit) (job' : Job),
      ReflTransGen (Step (sampleEnv [])) m m' ∧ Works m' session' job' ∧
      session'.generation = session.generation + n ∧ m'.found = [] ∧ m'.workers = m.workers ∧
      m'.trace = m.trace ++ List.replicate n (Event.received promptEvent) ∧
      m'.sharedGeneration = m.sharedGeneration ∧ m'.sharedCursor = m.sharedCursor := by
  induction n with
  | zero => exact ⟨m, session, job, .refl, h, rfl, hfound, rfl, by simp, rfl, rfl⟩
  | succ n ih =>
      obtain ⟨m₁, session₁, job₁, hsteps, hworks, hgeneration, hfound₁, hworkers, htrace, hshared,
        hcursor⟩ := ih
      obtain ⟨m₂, session₂, job₂, hrenew, hworks₂, hnext, hfound₂, hsame, htrace₂, hshared₂,
        hcursor₂⟩ := hworks.renew hfound₁
      refine ⟨m₂, session₂, job₂, hsteps.trans hrenew, hworks₂, ?_, hfound₂, hsame.trans hworkers,
        ?_, hshared₂.trans hshared, hcursor₂.trans hcursor⟩
      · rw [hnext, hgeneration, Nat.add_assoc]
      · rw [htrace₂, htrace, List.append_assoc, List.replicate_succ']

/-- A worker that has just been started reserves its first range. -/
theorem Works.take (h : Works m session job) (i : Fin cfg.slots) (cursor : UInt64) (p : Partition)
    (hphase : (m.workers i).phase = .starting) (hcursor : (m.syncCursor job).sharedCursor = cursor)
    (hpartition : partition 0x60000000 0 cursor (cfg.batch i) = .ok p) :
    ∃ m' : Machine cfg Unit, ReflTransGen (Step (sampleEnv [])) m m' ∧ Works m' session job ∧
      m'.found = m.found ∧ m'.ledger = m.ledger ∧ m'.nextId = m.nextId ∧
      (m'.workers i).phase = .holding job cursor ∧ (∀ k, k ≠ i → m'.workers k = m.workers k) ∧
      m'.trace = m.trace ++ [Event.reserved job cursor p] ∧
      m'.sharedGeneration = job.generation ∧ m'.sharedCursor = cursor + p.count.toUInt64 := by
  have hconstruct : WorkerStep i m (m.setPhase i .checking) := .construct m hphase
  have hcheck : WorkerStep i (m.setPhase i .checking) (m.setPhase i .ready) := by
    have hstep := WorkerStep.check (m.setPhase i .checking) (by rw [workers_setPhase])
    rw [show (m.setPhase i .checking).stop = false from h.stop] at hstep
    simpa [Machine.setPhase, Machine.setWorker] using hstep
  have htake := WorkerStep.take (m.setPhase i .ready) (by rw [workers_setPhase])
  obtain ⟨htrace, hshared, -⟩ := syncCursor_fields (m.setPhase i .ready) job
  have hsync : ((m.setPhase i .ready).syncCursor job).sharedCursor = cursor := by
    rw [← hcursor, (syncCursor_fields _ job).2.2, (syncCursor_fields m job).2.2]
    rfl
  have hsame := syncCursor_sameConnection (m.setPhase i .ready) job
  have hrest : ((m.setPhase i .ready).syncCursor job).found = m.found ∧
      ((m.setPhase i .ready).syncCursor job).failure = m.failure ∧
      ((m.setPhase i .ready).syncCursor job).workers = (m.setPhase i .ready).workers := by
    unfold Machine.syncCursor
    split <;> exact ⟨rfl, rfl, rfl⟩
  have hafter : (m.setPhase i .ready).takeWork i =
      { (m.setPhase i .ready).syncCursor job with
        sharedCursor := cursor + p.count.toUInt64
        trace := m.trace ++ [Event.reserved job cursor p] }.setPhase i (.holding job cursor) := by
    rw [Machine.takeWork, show (m.setPhase i .ready).work = some job from h.work]
    simp only [h.sv2, if_true, h.time32, hsync, hpartition, htrace]
    rfl
  rw [hafter] at htake
  refine ⟨_, .head (.worker i hconstruct) (.head (.worker i hcheck) (.single (.worker i htake))),
    ⟨h.toHolds, hsame.main.trans h.main, hsame.link.trans h.link, hrest.2.1.trans h.failure,
      hsame.draining.trans h.draining, hsame.stop.trans h.stop, hsame.work.trans h.work,
      hsame.activated.trans h.activated⟩, hrest.1, hsame.ledger, hsame.nextId, ?_, ?_, rfl, hshared, rfl⟩
  · rw [workers_setPhase]
  · intro k hk
    change Function.update ((m.setPhase i .ready).syncCursor job).workers i _ k = _
    rw [Function.update_of_ne hk, hrest.2.2]
    exact Function.update_of_ne hk _ _

/-- On the CPU the worker scans the single nonce it has reserved, which is a
solution, and hands it over. -/
theorem Works.find (h : Works m session job) {i : Fin cfg.slots}
    (hphase : (m.workers i).phase = .holding job 0) (hbackend : cfg.backend i = .cpu)
    (hbatch : cfg.batch i = 1) (hhits : hits (job.roll 0x60000000).work 0 = true)
    (hroom : m.found.length < 8192) :
    ∃ m' : Machine cfg Unit, ReflTransGen (Step (sampleEnv [])) m m' ∧ Works m' session job ∧
      m'.found = m.found ++ [Found.mk (job.roll 0x60000000) 0 (cfg.row i)] ∧
      m'.ledger = m.ledger ∧ m'.nextId = m.nextId ∧
      m'.trace = m.trace ++ [Event.scanned i (job.roll 0x60000000) 0 1] := by
  have hrange : ((m.workers i).adopt job).range i (cfg.batch i) job 0 =
      .ok (job.roll 0x60000000, 0, 1) := by
    have hpartition : partition 0x60000000 0 0 1 = .ok ⟨0, 0x60000000, 1⟩ := rfl
    rw [Worker.range, if_pos h.sv2, h.time32, hbatch, hpartition, ok_bind]
    rfl
  have hscan := WorkerStep.scan m job (job.roll 0x60000000) 0 0 1
    (Cpu.scan (job.roll 0x60000000).work 0 1) hphase hrange (Or.inl (by rw [hbackend]; rfl))
  have hnonces : (nonceRange 0 (1 : UInt32).toNat).filter (hits (job.roll 0x60000000).work) = [0] := by
    rw [show nonceRange 0 (1 : UInt32).toNat = [0] from rfl, List.filter_cons_of_pos hhits,
      List.filter_nil]
  rw [Cpu.scan_eq _ _ _ (by decide), hnonces] at hscan
  let scanned : Machine cfg Unit :=
    m.scanRange i ((m.workers i).adopt job) (job.roll 0x60000000) 0 1 (.ok { hashes := 1, nonces := [0] })
  have hpush := WorkerStep.push scanned (job.roll 0x60000000) { hashes := 1, nonces := [0] }
    (congrArg Worker.phase (workers_setWorker _ _ _))
  have hpushed : scanned.pushFound i (job.roll 0x60000000) { hashes := 1, nonces := [0] } =
      { scanned with found := m.found ++ [Found.mk (job.roll 0x60000000) 0 (cfg.row i)] }.setPhase i
        .checking := by
    rw [Machine.pushFound, if_neg]
    · rfl
    · change ¬ m.found.length + 1 > 8192
      omega
  rw [hpushed] at hpush
  exact ⟨_, .head (.worker i hscan) (.single (.worker i hpush)), ⟨h.toHolds, h.main, h.link, h.failure,
    h.draining, h.stop, h.work, h.activated⟩, rfl, rfl, rfl, rfl⟩

theorem receive_nothing (h : Holds session job) :
    session.receive sampleForeign [] = .ok ([], session) := by
  have hready : ¬ session.phase = 0 := by rw [h.renews.phase]; decide
  have hsame : { session with noise := resting } = session := by rw [← h.noise]
  have hframes : resting.receive paddingCipher [] = .ok ([], resting) := rfl
  rw [Session.receive, if_neg hready, Session.receiveReady, h.noise,
    show sampleForeign.cipher = paddingCipher from rfl, hframes, ok_bind]
  simp only [hsame]
  rfl

/-- An iteration that reads nothing takes up what has been found. -/
theorem Works.collect (h : Works m session job) : ReflTransGen (Step (sampleEnv [])) m
    { m with main := .submitting m.found, found := [] } := by
  have hattend := iteration_attend h.main h.link h.draining (receive_nothing h.toHolds) h.current
    fun _ => ⟨h.work, h.activated⟩
  have hsame : m.attended session [] job = { m with main := .collecting } := by
    simp [Machine.attended, ← h.work, ← h.activated, ← h.link]
  rw [hsame] at hattend
  exact hattend.tail (.main (.collect _ rfl h.failure))

/-- The share of the first nonce passes the checks and goes out. -/
theorem Works.submit (h : Works m session job) (row : Fin cfg.rows)
    (hhits : hits (job.roll 0x60000000).work 0 = true) (hpending : m.ledger.pending = ∅)
    (hid : m.nextId = 10) (hwire : job.wireJob = 7) (hversion : job.version = 0x20000000)
    (hfirst : session.lastSent = 0) (hnone : session.pending = []) :
    ∃ (m' : Machine cfg Unit) (session' : Session Unit) (bytes : Bytes), Step (sampleEnv [])
        { m with main := .submitting [Found.mk (job.roll 0x60000000) 0 row], found := [] } m' ∧
      m'.link = .sv2 session' ∧ session'.phase = session.phase ∧
      session'.written = session.written ++ bytes ∧ bytes.length = 62 ∧
      m'.trace = m.trace ++ [Event.submitted 10 (.sv2 5 10 7 0 0x60000000 0x20000000)
        (Found.mk (job.roll 0x60000000) 0 row)] := by
  let f : Found cfg.rows := Found.mk (job.roll 0x60000000) 0 row
  let ready : Machine cfg Unit := { m with main := .submitting [f], found := [] }
  have hvalid : session.valid f.job = true := by
    rw [show f.job = job.roll 0x60000000 from rfl, Session.valid_roll]
    exact Session.valid_of_stands h.stands
  have hmeets : meets (digest (storeLe f.job.work.header 32 f.nonce)) f.job.work.target = true := hhits
  obtain ⟨n, hcheck⟩ : ∃ n, ready.checkShare f = .ok (some n) := by
    simp only [Machine.checkShare, ready, h.draining, h.link, Link.valid, hvalid, hpending,
      blake2b256_header, ok_bind, hmeets]
    exact ⟨_, rfl⟩
  obtain ⟨bytes, noise, hencode, hlength⟩ : ∃ bytes noise, resting.encode paddingCipher
      (submitStandard 5 10 7 0 0x60000000 0x20000000) = .ok (bytes, noise) ∧ bytes.length = 62 :=
    ⟨_, _, rfl, rfl⟩
  have hguard : session.submittable f.job f.nonce 10 = true := by
    simp only [Session.submittable, hvalid, hfirst, hnone]
    rfl
  have hframe : submitStandard session.channel 10 f.job.wireJob f.nonce.toUInt32 f.job.time32
      f.job.version = submitStandard 5 10 7 0 0x60000000 0x20000000 := by
    obtain ⟨-, -, -, hsame, -, hkept, -⟩ := job.roll_same 0x60000000
    rw [h.channel, show f.job.wireJob = 7 from hsame.trans hwire,
      show f.job.version = 0x20000000 from hkept.trans hversion]
    rfl
  obtain ⟨session', hsubmit, hphase, hwritten⟩ : ∃ session',
      session.submit sampleForeign f.job f.nonce 10 = .ok session' ∧ session'.phase = session.phase ∧
        session'.written = session.written ++ bytes := by
    rw [Session.submit, if_pos hguard, hframe, Session.send, h.noise,
      show sampleForeign.cipher = paddingCipher from rfl, hencode]
    exact ⟨_, rfl, rfl, rfl⟩
  refine ⟨_, session', bytes, .main (.submit ready
    ({ ready.addCandidates n with link := .sv2 session' }.record
      (.sv2 5 10 7 0 0x60000000 0x20000000) f) f [] rfl ?_), rfl, hphase, hwritten, hlength, ?_⟩
  · have hshare : Share.sv2 session.channel 10 f.job.wireJob f.nonce.toUInt32 f.job.time32
        f.job.version = .sv2 5 10 7 0 0x60000000 0x20000000 := by
      obtain ⟨-, -, -, hsame, -, hkept, -⟩ := job.roll_same 0x60000000
      rw [h.channel, show f.job.wireJob = 7 from hsame.trans hwire,
        show f.job.version = 0x20000000 from hkept.trans hversion]
      rfl
    rw [Machine.submitOne, hcheck, ok_bind]
    simp only [Machine.sendShare, show (ready.addCandidates n).link = .sv2 session from h.link,
      show (ready.addCandidates n).nextId = 10 from hid]
    rw [if_neg (by decide), show ((10 : Int).toNat.toUInt32) = 10 from rfl,
      show (sampleEnv []).foreign = sampleForeign from rfl, hsubmit, hshare]
    rfl
  · change m.trace ++ [Event.submitted m.nextId _ _] = _
    rw [hid]

theorem opening_holds : ∃ events session job,
    openingSession.receive sampleForeign openingStream = .ok (events, session) ∧ events ≠ [] ∧
      (∀ e ∈ events, e.integerMember? "id".toList = none) ∧ Holds session job ∧
      session.generation = 1 ∧ job.wireJob = 7 ∧ job.version = 0x20000000 ∧ session.lastSent = 0 ∧
      session.pending = [] ∧ hits (job.roll 0x60000000).work 0 = true ∧
      session.written.length ≤ 8000 := by
  have hcheck : (match openingSession.receive sampleForeign openingStream with
      | .ok (events, s) =>
          !events.isEmpty && events.all (fun e => (e.integerMember? "id".toList).isNone) &&
          isResting s.noise && s.channel == 5 && s.phase == 3 && s.extra.length == 12 &&
          s.generation == 1 && s.lastSent == 0 && s.pending.isEmpty &&
          decide (s.written.length ≤ 8000) &&
          (s.jobs.lookup 7).any (fun stored => stored.wire.job == 7 && !stored.future &&
            stored.job.generation == 1) &&
          s.current.any (fun j => j.wireJob == 7 && j.version == 0x20000000 && j.sv2 &&
            j.time32 == 0x60000000 && j.generation == 1 && j.channel == 5 && j.epoch == s.epoch &&
            hits (j.roll 0x60000000).work 0)
      | .error _ => false) = true := by
    decide +kernel
  cases hreceive : openingSession.receive sampleForeign openingStream with
  | error e =>
      rw [hreceive] at hcheck
      cases hcheck
  | ok result =>
      obtain ⟨events, s⟩ := result
      rw [hreceive] at hcheck
      simp only [Bool.and_eq_true, Bool.not_eq_true', List.isEmpty_eq_false_iff, List.all_eq_true,
        Option.isNone_iff_eq_none, beq_iff_eq, List.isEmpty_iff, decide_eq_true_eq,
        Option.any_eq_true] at hcheck
      obtain ⟨⟨⟨⟨⟨⟨⟨⟨⟨⟨⟨hevents, hids⟩, hnoise⟩, hchannel⟩, hphase⟩, hextra⟩, hgeneration⟩, hfirst⟩,
        hnone⟩, hwritten⟩, stored, hlookup, ⟨hwire, hactive⟩, hnumber⟩, j, hcurrent,
        ⟨⟨⟨⟨⟨⟨hjob, hversion⟩, hsv2⟩, htime⟩, hlatest⟩, hsent⟩, hepoch⟩, hhits⟩ := hcheck
      refine ⟨events, s, j, rfl, hevents, hids, ⟨eq_resting hnoise, hchannel,
        ⟨hphase, hextra, stored, hlookup, hwire⟩, hcurrent, ?_, hsv2, htime,
        hlatest.trans hgeneration.symm⟩, hgeneration, hjob, hversion, hfirst, hnone, hhits, hwritten⟩
      exact ⟨stored, by rw [hjob]; exact hlookup, hphase, hsent.trans hchannel.symm, hepoch, hactive,
        hnumber.trans hlatest.symm⟩

theorem account_quiet {ledger : Ledger cfg.rows} {events : List Json}
    (h : ∀ e ∈ events, e.integerMember? "id".toList = none) :
    events.foldl Ledger.account ledger = ledger := by
  induction events with
  | nil => rfl
  | cons e rest ih =>
      have hquiet : ledger.account e = ledger := by
        simp only [Ledger.account, h e List.mem_cons_self]
      rw [List.foldl_cons, hquiet]
      exact ih fun e' he' => h e' (List.mem_cons_of_mem e he')

/-- The connection mines its first job, and no range has been reserved. -/
theorem opening_works (cfg : Config) : ∃ (m : Machine cfg Unit) (session : Session Unit) (job : Job),
    Run (sampleEnv []) (.sv2 openingSession) {} m ∧ Works m session job ∧ session.generation = 1 ∧
      job.wireJob = 7 ∧ job.version = 0x20000000 ∧ session.lastSent = 0 ∧ session.pending = [] ∧
      hits (job.roll 0x60000000).work 0 = true ∧ session.written.length ≤ 8000 ∧ m.found = [] ∧
      m.workers = (fun _ => {}) ∧ m.ledger = {} ∧ m.nextId = 10 ∧ m.sharedGeneration = 0 ∧
      m.sharedCursor = 0 ∧ ∃ events : List Json, m.trace = events.map Event.received := by
  obtain ⟨events, session, job, hreceive, hevents, hids, hholds, hgeneration, hwire, hversion, hfirst,
    hnone, hhits, hwritten⟩ := opening_holds
  have hsteps := iteration_quiet (m := Machine.initial cfg (.sv2 openingSession) {}) rfl rfl rfl rfl rfl
    hreceive hholds.current fun hempty => absurd hempty hevents
  refine ⟨_, session, job, hsteps, ⟨hholds, rfl, rfl, rfl, rfl, rfl, rfl, rfl⟩, hgeneration, hwire,
    hversion, hfirst, hnone, hhits, hwritten, rfl, rfl, account_quiet hids, rfl, rfl, rfl, events, ?_⟩
  simp [Machine.attended, Machine.initial]

/-- The connection has found its first share, which goes out in the next step. -/
theorem opening_submits :
    ∃ (m m' : Machine sampleConfig Unit) (session session' : Session Unit) (bytes : Bytes)
      (job : Job) (f : Found sampleConfig.rows) (events : List Json),
      Run (sampleEnv []) (.sv2 openingSession) {} m ∧ m.link = .sv2 session ∧
        session.phase = 3 ∧ session.written.length ≤ 8000 ∧
        m.trace = events.map Event.received ++
          [.reserved job 0 ⟨0, 0x60000000, 1⟩, .scanned theSlot f.job 0 1] ∧
        Step (sampleEnv []) m m' ∧ m'.link = .sv2 session' ∧ session'.phase = 3 ∧
        session'.written = session.written ++ bytes ∧ bytes.length = 62 ∧
        m'.trace = m.trace ++ [.submitted 10 (.sv2 5 10 7 0 0x60000000 0x20000000) f] := by
  obtain ⟨m, session, job, hrun, hworks, hgeneration, hwire, hversion, hfirst, hnone, hhits, hwritten,
    hfound, hworkers, hledger, hid, hshared, hcursor, events, htrace⟩ := opening_works sampleConfig
  obtain ⟨m₁, htake, hworks₁, hfound₁, hledger₁, hid₁, hphase₁, -, htrace₁, -, -⟩ :=
    hworks.take theSlot 0 ⟨0, 0x60000000, 1⟩ (by rw [hworkers])
      (by rw [(syncCursor_fields m job).2.2, hcursor, ite_self]) rfl
  obtain ⟨m₂, hscan, hworks₂, hfound₂, hledger₂, hid₂, htrace₂⟩ :=
    hworks₁.find hphase₁ rfl rfl hhits (by rw [hfound₁, hfound]; decide)
  obtain ⟨m₃, session', bytes, hstep, hlink', hphase', hwritten', hlength, htrace₃⟩ :=
    hworks₂.submit (sampleConfig.row theSlot) hhits (by rw [hledger₂, hledger₁, hledger])
      (by rw [hid₂, hid₁, hid]) hwire hversion hfirst hnone
  have hone : m₂.found = [Found.mk (job.roll 0x60000000) 0 (sampleConfig.row theSlot)] := by
    rw [hfound₂, hfound₁, hfound]
    rfl
  have hcollect := hworks₂.collect
  rw [hone] at hcollect
  refine ⟨_, m₃, session, session', bytes, job, _, events,
    ((hrun.trans htake).trans hscan).trans hcollect, hworks₂.link, hworks₂.renews.phase, hwritten, ?_,
    hstep, hlink', hphase'.trans hworks₂.renews.phase, hwritten', hlength, htrace₃⟩
  rw [show ({ m₂ with main := .submitting _, found := [] } : Machine sampleConfig Unit).trace = m₂.trace
    from rfl, htrace₂, htrace₁, htrace, List.append_assoc]
  rfl

end Supryolo.Miner
