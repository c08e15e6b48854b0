import Supryolo.Notifications
import Supryolo.Miner.Steps
import Supryolo.Verdicts

namespace Supryolo.Miner

open Incremental Loops Relation

variable {cfg : Config} {κ : Type} {env : Env κ} {m next : Machine cfg κ}

/-- The bytes of a line on the wire. -/
def lineBytes (line : Text) : Bytes := (line ++ ['\n']).map fun c => c.toNat.toUInt8

private theorem text_lineBytes {line : Text} (hbytes : ∀ c ∈ line, c.toNat < 256) :
    ((lineBytes line).map fun byte => Char.ofNat byte.toNat) = line ++ ['\n'] := by
  rw [lineBytes, List.map_map, List.map_append]
  have hchar : ∀ c ∈ line,
      ((fun byte : UInt8 => Char.ofNat byte.toNat) ∘ fun c : Char => c.toNat.toUInt8) c = id c := by
    intro c hc
    have hlt : c.toNat.toUInt8.toNat = c.toNat := by
      rw [Nat.toUInt8, UInt8.toNat_ofNat']
      exact Nat.mod_eq_of_lt (hbytes c hc)
    simp only [Function.comp_apply, hlt, Char.ofNat_toNat, id_eq]
  rw [List.map_congr_left hchar, List.map_id]
  rfl

/-- A read that brings exactly one line returns its message and leaves the
buffer empty. -/
theorem read_line {state : StratumState} {line : Text} {message : Json} (hline : line ≠ [])
    (hnewline : '\n' ∉ line) (hbytes : line.all (fun c => decide (c.toNat < 256)) = true)
    (hlength : line.length < 65536) (hparse : env.parse line = .ok message) :
    Link.read env (.sv1 [] state) [lineBytes line] .again = .ok ([message], .sv1 [] state) := by
  have hrun : (lineDecoder env.parse).run () (line ++ ['\n']) = .ok ([message], (), []) := by
    have hstep : (lineDecoder env.parse).step () (line ++ ['\n']) =
        .ok (.take () [] (some message)) := by
      change lineStep env.parse () _ = _
      rw [lineStep_newline env.parse hnewline, if_neg hline, hparse]
      rfl
    have hwait : (lineDecoder env.parse).run () [] = .ok ([], (), []) := rfl
    rw [Decoder.run_take hstep, hwait]
    rfl
  have hbytes : ∀ c ∈ line, c.toNat < 256 := by simpa using hbytes
  have hchunk : readChunk env.parse ([], []) (line ++ ['\n']) = .ok ([message], []) := by
    simp only [readChunk, List.nil_append, hrun]
    rw [if_neg (by simp; omega)]
    rfl
  simp only [Link.read, Miner.read, List.map_cons, List.map_nil, text_lineBytes hbytes,
    List.foldlM_cons, List.foldlM_nil, hchunk]
  rfl

/-- The state after an SV1 message has been handled. -/
def Machine.delivered (m : Machine cfg κ) (message : Json) (state' : StratumState)
    (job : Option Job) : Machine cfg κ :=
  { m with
    trace := m.trace ++ [Event.received message], link := .sv1 [] state'
    ledger := m.ledger.account message }.publish state'.authorized job.isSome

private theorem delivered_fields (m : Machine cfg κ) (message : Json) (state' : StratumState)
    (job : Option Job) :
    (∀ main, { m with main := main }.delivered message state' job =
        { m.delivered message state' job with main := main }) ∧
      (m.delivered message state' job).failure = m.failure ∧
      (m.delivered message state' job).found = m.found ∧
      (m.delivered message state' job).link = .sv1 [] state' := by
  cases hfresh : !m.draining && state'.authorized && (job.isSome || !m.activated) <;>
    simp only [Machine.delivered, Machine.publish, hfresh] <;>
    exact ⟨fun _ => rfl, rfl, rfl, rfl⟩

private theorem skip_queue {queue : List (Found cfg.rows)} (hmain : m.main = .submitting queue)
    (hskip : ∀ f ∈ queue, m.link.valid f.job = false) :
    ReflTransGen (Step env) m { m with main := .submitting [] } := by
  induction queue generalizing m with
  | nil =>
      rw [← hmain]
  | cons f rest ih =>
      have hcheck : m.checkShare f = .ok none := by
        unfold Machine.checkShare
        rw [hskip f List.mem_cons_self]
        split <;> rfl
      have hsubmit : m.submitOne env f = .ok m := by
        unfold Machine.submitOne
        rw [hcheck]
        rfl
      refine .head (.main (.submit m m f rest hmain hsubmit)) ?_
      exact ih rfl fun g hg => hskip g (List.mem_cons_of_mem f hg)

/-- An iteration of an SV1 connection starts with a read. -/
theorem iteration_read {state : StratumState} {chunks : List Bytes} {messages : List Json}
    (hmain : m.main = .head) (hlink : m.link = .sv1 [] state)
    (hread : Link.read env (.sv1 [] state) chunks .again = .ok (messages, .sv1 [] state)) :
    ReflTransGen (Step env) m { m with main := .handling messages } := by
  have hiterate : MainStep env m { m with main := .polling } :=
    .iterate m false true false hmain rfl (by simp)
  have hpoll : MainStep env { m with main := .polling } { m with main := .handling messages } := by
    refine .poll { m with main := .polling } chunks .again messages m.link rfl ?_
    rw [← hlink] at hread
    exact hread
  exact .head (.main hiterate) (.head (.main hpoll) .refl)

theorem handle_delivered {message : Json} {rest : List Json} {state state' : StratumState}
    {job : Option Job} (hlink : m.link = .sv1 [] state)
    (hreceive : state.receive message = .ok (job, state')) :
    MainStep env { m with main := .handling (message :: rest) }
      { m.delivered message state' job with main := .handling rest } := by
  obtain ⟨hdelivered, -⟩ := delivered_fields m message state' job
  refine .handle _ { m.delivered message state' job with main := .handling (message :: rest) }
    message rest rfl ?_
  rw [← hdelivered]
  simp only [Machine.handleMessage, hlink, hreceive]
  rfl

/-- An iteration that reads one message and submits nothing. -/
theorem iteration_deliver {message : Json} {state state' : StratumState} {job : Option Job}
    {chunks : List Bytes} (hmain : m.main = .head) (hfailure : m.failure = "")
    (hlink : m.link = .sv1 [] state)
    (hread : Link.read env (.sv1 [] state) chunks .again = .ok ([message], .sv1 [] state))
    (hreceive : state.receive message = .ok (job, state'))
    (hskip : ∀ f ∈ m.found, state'.valid f.job = false) :
    ReflTransGen (Step env) m
      { m.delivered message state' job with main := .head, found := [] } := by
  obtain ⟨-, hfailed, hfound, hvalid⟩ := delivered_fields m message state' job
  have hcollect : MainStep env { m.delivered message state' job with main := .collecting }
      { m.delivered message state' job with main := .submitting m.found, found := [] } := by
    rw [← hfound]
    exact .collect _ rfl (hfailed.trans hfailure)
  have hsubmit : ReflTransGen (Step env)
      { m.delivered message state' job with main := .submitting m.found, found := [] }
      { m.delivered message state' job with main := .submitting [], found := [] } := by
    refine skip_queue rfl ?_
    intro f hf
    simp only [hvalid]
    exact hskip f hf
  refine (iteration_read hmain hlink hread).trans
    (.head (.main (handle_delivered hlink hreceive)) ?_)
  refine .head (.main (.handled _ rfl)) (.head (.main hcollect) (hsubmit.trans ?_))
  exact .head (.main (.submitted _ rfl)) (.head (.main (.wait _ rfl)) .refl)

/-- An iteration that reads nothing takes up what has been found. -/
theorem iteration_collect {state : StratumState} (hmain : m.main = .head)
    (hfailure : m.failure = "") (hlink : m.link = .sv1 [] state) :
    ReflTransGen (Step env) m { m with main := .submitting m.found, found := [] } := by
  have hread : Link.read env (.sv1 [] state) [] .again = .ok ([], .sv1 [] state) := rfl
  have hcollect : MainStep env { m with main := .collecting }
      { m with main := .submitting m.found, found := [] } := .collect _ rfl hfailure
  refine (iteration_read hmain hlink hread).trans (.head (.main (.handled _ rfl)) ?_)
  exact .head (.main hcollect) .refl

/-- A share that passes the checks of the submit loop goes out. -/
theorem submit_share {state : StratumState} {f : Found cfg.rows} {n : Nat}
    (hlink : m.link = .sv1 [] state) (hcheck : m.checkShare f = .ok (some n)) :
    MainStep env { m with main := .submitting [f], found := [] }
      { (m.addCandidates n).record (.sv1 env.user f.job.id f.job.en2 f.job.ntime
          (hex (Words.leBytes 8 f.nonce))) f with main := .submitting [], found := [] } := by
  refine .submit _ { (m.addCandidates n).record (.sv1 env.user f.job.id f.job.en2 f.job.ntime
    (hex (Words.leBytes 8 f.nonce))) f with main := .submitting [f], found := [] } f [] rfl ?_
  have hcheck' : ({ m with main := .submitting [f], found := [] } : Machine cfg κ).checkShare f =
    .ok (some n) := hcheck
  simp only [Machine.submitOne, hcheck', ok_bind]
  simp only [Machine.sendShare, Machine.addCandidates, hlink]
  rfl

/-- An iteration that reads nothing and submits one share. -/
theorem iteration_submit {state : StratumState} {f : Found cfg.rows} {n : Nat}
    (hmain : m.main = .head) (hfailure : m.failure = "") (hlink : m.link = .sv1 [] state)
    (hfound : m.found = [f]) (hcheck : m.checkShare f = .ok (some n)) :
    ReflTransGen (Step env) m
      { (m.addCandidates n).record (.sv1 env.user f.job.id f.job.en2 f.job.ntime
          (hex (Words.leBytes 8 f.nonce))) f with main := .head, found := [] } := by
  have hcollect : ReflTransGen (Step env) m { m with main := .submitting [f], found := [] } := by
    rw [← hfound]
    exact iteration_collect hmain hfailure hlink
  refine hcollect.trans (.head (.main (submit_share hlink hcheck)) ?_)
  exact .head (.main (.submitted _ rfl)) (.head (.main (.wait _ rfl)) .refl)

/-- The outcome of a round on the CPU. -/
def Machine.scannedRange (m : Machine cfg κ) (i : Fin cfg.slots) (j : Job) : Machine cfg κ :=
  let w := (m.workers i).adopt j
  let start := (i.val.toUInt64 <<< 56) ||| w.cursor
  m.scanRange i w j start (cfg.batch i)
    (.ok { hashes := (cfg.batch i).toUInt64
           nonces := (nonceRange start (cfg.batch i).toNat).filter (hits j.work) })

@[simp] theorem workers_setWorker (m : Machine cfg κ) (i : Fin cfg.slots) (w : Worker) :
    (m.setWorker i w).workers i = w :=
  Function.update_self i _ m.workers

@[simp] theorem workers_setPhase (m : Machine cfg κ) (i : Fin cfg.slots) (phase : Phase) :
    (m.setPhase i phase).workers i = { m.workers i with phase := phase } :=
  workers_setWorker m i _

theorem adopt_phase (w : Worker) (phase : Phase) (j : Job) :
    { w with phase := phase }.adopt j = { w.adopt j with phase := phase } := by
  unfold Worker.adopt
  dsimp only
  split <;> rfl

/-- A worker that is about to check for a stop takes the work and scans. -/
theorem worker_scan {i : Fin cfg.slots} {j : Job} (hphase : (m.workers i).phase = .checking)
    (hstop : m.stop = false) (hwork : m.work = some j) (hsv1 : j.sv2 = false)
    (hbackend : cfg.backend i = .cpu)
    (hroom : ¬ ((m.workers i).adopt j).cursor > 0x100000000000000 - (cfg.batch i).toUInt64)
    (hrange : rangeOverflows ((i.val.toUInt64 <<< 56) ||| ((m.workers i).adopt j).cursor)
      (cfg.batch i) = false) :
    ReflTransGen (Step env) m (m.scannedRange i j) := by
  have hcheck : WorkerStep i m (m.setPhase i .ready) := by
    have hstep := WorkerStep.check m hphase
    rw [hstop] at hstep
    exact hstep
  have htake : WorkerStep i (m.setPhase i .ready) (m.setPhase i (.holding j 0)) := by
    have hstep := WorkerStep.take (m.setPhase i .ready) (by rw [workers_setPhase])
    have hholding : (m.setPhase i .ready).takeWork i = m.setPhase i (.holding j 0) := by
      rw [Machine.takeWork, show (m.setPhase i .ready).work = some j from hwork]
      simp [hsv1, Machine.setPhase, Machine.setWorker]
    rw [hholding] at hstep
    exact hstep
  have hscan : WorkerStep i (m.setPhase i (.holding j 0)) (m.scannedRange i j) := by
    have hstep := WorkerStep.scan (m.setPhase i (.holding j 0)) j j 0
      ((i.val.toUInt64 <<< 56) ||| ((m.workers i).adopt j).cursor) (cfg.batch i)
      (Cpu.scan j.work ((i.val.toUInt64 <<< 56) ||| ((m.workers i).adopt j).cursor) (cfg.batch i))
      (by rw [workers_setPhase])
      (by
        rw [workers_setPhase, adopt_phase]
        simp only [Worker.range, hsv1, Bool.false_eq_true, if_false, hroom]
        rfl)
      (Or.inl (by rw [hbackend]; rfl))
    rw [workers_setPhase, adopt_phase, Cpu.scan_eq _ _ _ hrange] at hstep
    have hworkers : (m.setPhase i (.holding j 0)).scanRange i
        { (m.workers i).adopt j with phase := .holding j 0 } j
        ((i.val.toUInt64 <<< 56) ||| ((m.workers i).adopt j).cursor) (cfg.batch i)
        (.ok { hashes := (cfg.batch i).toUInt64
               nonces := (nonceRange ((i.val.toUInt64 <<< 56) ||| ((m.workers i).adopt j).cursor)
                (cfg.batch i).toNat).filter (hits j.work) }) = m.scannedRange i j := by
      simp [Machine.scanRange, Machine.scannedRange, Machine.setPhase, Machine.setWorker]
    rw [hworkers] at hstep
    exact hstep
  exact .head (.worker i hcheck) (.head (.worker i htake) (.head (.worker i hscan) .refl))

/-- No GPU and one CPU thread that scans one nonce at a time. -/
def sampleOptions : Options where
  selected := []
  cpuThreads := 1
  cpu := .cpu
  batch := 1
  cpuBatch := 1
  batch_positive := by decide
  cpuBatch_positive := by decide

def sampleConfig : Config where
  rows := 1
  slots := 1
  row := fun i => ⟨min i.val 0, by omega⟩
  backend := fun i => ([] : List Backend).getD i.val .cpu
  batch := fun i => if i.val < 0 then 1 else 1
  batch_positive := fun i => by split <;> decide

theorem slotsOf_sample : slotsOf sampleOptions = .ok sampleConfig := rfl

def subscribedLine : Text := "\x7b\"id\":1,\"result\":[[],\"00000000\",8]\x7d".toList

def authorizedLine : Text := "\x7b\"id\":3,\"result\":true\x7d".toList

def easyLine : Text := "\x7b\"method\":\"mining.set_difficulty\",\"params\":[1e-20]\x7d".toList

def noticeLineOf (prev : Text) : Text :=
  "\x7b\"method\":\"mining.notify\",\"params\":[\"j\",\"".toList ++ prev ++ "\",\"".toList ++
    zeros 78 ++ "\",\"\",[],\"00000000\",\"1d00ffff\",\"".toList ++ zeros 16 ++ "\",true]\x7d".toList

def noticeLine : Text := noticeLineOf (zeros 64)

/-- A parser that knows a few lines. -/
def sampleParse (known : List (Text × Json)) : Parser := fun line =>
  match known.find? fun entry => entry.1 = line with
  | some entry => .ok entry.2
  | none => .error "parse error"

def sampleLines : List (Text × Json) :=
  [(subscribedLine, subscribed), (authorizedLine, authorized), (easyLine, easy),
    (noticeLine, notice)]

def sampleEnv (known : List (Text × Json)) : Env Unit where
  parse := sampleParse (sampleLines ++ known)
  foreign := Sv2.sampleForeign
  user := "worker".toList

/-- The connection is idle and a job may be notified. -/
structure Connected (m : Machine sampleConfig Unit) (state : StratumState) : Prop where
  main : m.main = .head
  link : m.link = .sv1 [] state
  failure : m.failure = ""
  draining : m.draining = false
  stop : m.stop = false
  en1 : state.en1 = zeros 8
  en2Size : state.en2Size = 8
  nextTarget : state.nextTarget = Vector.replicate 32 255
  haveTarget : state.haveTarget = true
  authorized : state.authorized = true

/-- The notified job is the published work. -/
structure Mines (m : Machine sampleConfig Unit) (state : StratumState) (job : Job) : Prop
    extends Connected m state where
  work : m.work = some job
  generation : job.generation = state.generation
  epoch : job.epoch = state.epoch
  en2 : job.en2 = StratumState.extraNonce state.generation
  known : state.validIds.lookup job.id = some state.generation
  id : job.id = "j".toList
  sv1 : job.sv2 = false
  target : job.work.target = Vector.replicate 32 255
  activated : m.activated = true

theorem parse_notice (known : List (Text × Json)) :
    (sampleEnv known).parse noticeLine = .ok notice := by
  have hsubscribed : decide (subscribedLine = noticeLine) = false := by decide +kernel
  have hauthorized : decide (authorizedLine = noticeLine) = false := by decide +kernel
  have heasy : decide (easyLine = noticeLine) = false := by decide +kernel
  simp only [sampleEnv, sampleParse, sampleLines, List.cons_append, List.find?_cons, hsubscribed,
    hauthorized, heasy, decide_true]

theorem read_notice (known : List (Text × Json)) (state : StratumState) :
    Link.read (sampleEnv known) (.sv1 [] state) [lineBytes noticeLine] .again =
      .ok ([notice], .sv1 [] state) :=
  read_line (by decide) (by decide +kernel) (by decide +kernel) (by decide +kernel)
    (parse_notice known)

/-- The pool notifies a clean job: shares of earlier jobs are dropped. -/
theorem Connected.notified (known : List (Text × Json)) {m : Machine sampleConfig Unit}
    {state : StratumState} (h : Connected m state) (hold : ∀ f ∈ m.found, f.job.epoch = state.epoch)
    {line prev : Text} {bytes : Bytes} (hread : Link.read (sampleEnv known) (.sv1 [] state)
      [lineBytes line] .again = .ok ([noticeOf prev], .sv1 [] state))
    (hprev : unhex prev = .ok bytes) (hsize : bytes.length = 32) :
    ∃ (m' : Machine sampleConfig Unit) (state' : StratumState) (job : Job),
      ReflTransGen (Step (sampleEnv known)) m m' ∧ Mines m' state' job ∧
      state'.generation = state.generation + 1 ∧ state'.epoch = state.epoch + 1 ∧ m'.found = [] ∧
      m'.workers = m.workers ∧ m'.trace = m.trace ++ [Event.received (noticeOf prev)] ∧
      m'.ledger = m.ledger ∧ m'.nextId = m.nextId := by
  obtain ⟨job, hreceive, hid, hgeneration, hepoch, hen2, hsv1, htarget⟩ :=
    StratumState.receive_noticeOf hprev hsize h.en1 h.en2Size h.haveTarget
  have hskip : ∀ f ∈ m.found, (StratumState.noticed state job).valid f.job = false := by
    intro f hf
    have hother : sameCount f.job.epoch (state.epoch + 1) = false := by
      rw [hold f hf]
      exact sameCount_eq_false (by omega)
    simp only [StratumState.valid, StratumState.noticed, hother, Bool.and_false, Bool.false_and]
  have hsteps := iteration_deliver h.main h.failure h.link hread hreceive hskip
  have hpublish : (!m.draining && state.authorized && ((some job).isSome || !m.activated)) = true := by
    rw [h.draining, h.authorized]
    rfl
  have hdelivered : m.delivered (noticeOf prev) (StratumState.noticed state job) (some job) =
      { m with
        trace := m.trace ++ [Event.received (noticeOf prev)]
        link := .sv1 [] (StratumState.noticed state job)
        work := some job, activated := true } := by
    unfold Machine.delivered Machine.publish
    exact if_pos hpublish
  rw [hdelivered] at hsteps
  refine ⟨_, StratumState.noticed state job, job, hsteps, ?_, rfl, rfl, rfl, rfl, rfl, rfl, rfl⟩
  refine ⟨⟨rfl, rfl, h.failure, h.draining, h.stop, h.en1, h.en2Size, h.nextTarget, h.haveTarget,
    h.authorized⟩, rfl, hgeneration, hepoch, hen2, ?_, hid, hsv1, htarget.trans h.nextTarget, rfl⟩
  rw [hid]
  rfl

theorem Connected.notify (known : List (Text × Json)) {m : Machine sampleConfig Unit}
    {state : StratumState} (h : Connected m state) (hold : ∀ f ∈ m.found, f.job.epoch = state.epoch) :
    ∃ (m' : Machine sampleConfig Unit) (state' : StratumState) (job : Job),
      ReflTransGen (Step (sampleEnv known)) m m' ∧ Mines m' state' job ∧
      state'.generation = state.generation + 1 ∧ state'.epoch = state.epoch + 1 ∧ m'.found = [] ∧
      m'.workers = m.workers ∧ m'.trace = m.trace ++ [Event.received notice] ∧
      m'.ledger = m.ledger ∧ m'.nextId = m.nextId :=
  h.notified known hold (read_notice known state)
    (show unhex (zeros 64) = .ok (List.replicate 32 0) from rfl) rfl

/-- Any number of notifications may pass while the workers rest. -/
theorem Mines.notify_many (known : List (Text × Json)) {m : Machine sampleConfig Unit}
    {state : StratumState} {job : Job} (h : Mines m state job)
    (hold : ∀ f ∈ m.found, f.job.epoch = state.epoch) (n : Nat) :
    ∃ (m' : Machine sampleConfig Unit) (state' : StratumState) (job' : Job),
      ReflTransGen (Step (sampleEnv known)) m m' ∧ Mines m' state' job' ∧
      state'.generation = state.generation + n ∧ state'.epoch = state.epoch + n ∧
      (∀ f ∈ m'.found, f.job.epoch = state'.epoch) ∧ m'.found.length ≤ m.found.length ∧
      m'.workers = m.workers ∧
      m'.trace = m.trace ++ List.replicate n (Event.received notice) ∧ m'.ledger = m.ledger := by
  induction n with
  | zero => exact ⟨m, state, job, .refl, h, rfl, rfl, hold, le_refl _, rfl, by simp, rfl⟩
  | succ n ih =>
      obtain ⟨m₁, state₁, job₁, hsteps, hmines, hgeneration, hepoch, hpast, -, hworkers, htrace,
        hledger⟩ := ih
      obtain ⟨m₂, state₂, job₂, hnotify, hmines₂, hnext, hlater, hfound, hsame, htrace₂, hledger₂,
        -⟩ := hmines.toConnected.notify known hpast
      refine ⟨m₂, state₂, job₂, hsteps.trans hnotify, hmines₂, ?_, ?_, ?_, ?_,
        hsame.trans hworkers, ?_, hledger₂.trans hledger⟩
      · rw [hnext, hgeneration, Nat.add_assoc]
      · rw [hlater, hepoch, Nat.add_assoc]
      · rw [hfound]
        simp
      · rw [hfound]
        exact Nat.zero_le _
      · rw [htrace₂, htrace, List.append_assoc, List.replicate_succ']

/-- The connection is opened and subscribed. -/
theorem sample_connected (known : List (Text × Json)) :
    ∃ m : Machine sampleConfig Unit, Run (sampleEnv known) (.sv1 [] {}) {} m ∧
      Connected m sampleState ∧ m.workers = (fun _ => {}) ∧ m.found = [] ∧
      m.ledger = {} ∧ m.nextId = 10 ∧
      m.trace = [.received subscribed, .received authorized, .received easy] := by
  have hsubscribe : Link.read (sampleEnv known) (.sv1 [] {}) [lineBytes subscribedLine] .again =
      .ok ([subscribed], .sv1 [] {}) :=
    read_line (by decide) (by decide) (by decide) (by decide) rfl
  have hauthorize : Link.read (sampleEnv known) (.sv1 [] { en1 := zeros 8, en2Size := 8 })
      [lineBytes authorizedLine] .again =
        .ok ([authorized], .sv1 [] { en1 := zeros 8, en2Size := 8 }) :=
    read_line (by decide) (by decide) (by decide) (by decide) rfl
  have heasy : Link.read (sampleEnv known)
      (.sv1 [] { en1 := zeros 8, en2Size := 8, authorized := true }) [lineBytes easyLine] .again =
        .ok ([easy], .sv1 [] { en1 := zeros 8, en2Size := 8, authorized := true }) :=
    read_line (by decide) (by decide) (by decide) (by decide) rfl
  have hfirst := iteration_deliver (m := Machine.initial sampleConfig (.sv1 [] {}) {}) rfl rfl rfl
    hsubscribe rfl (by intro f hf; cases hf)
  have hsecond := hfirst.trans (iteration_deliver rfl rfl rfl hauthorize rfl
    (by intro f hf; cases hf))
  have hthird := hsecond.trans (iteration_deliver rfl rfl rfl heasy rfl (by intro f hf; cases hf))
  exact ⟨_, hthird, ⟨rfl, rfl, rfl, rfl, rfl, rfl, rfl, rfl, rfl, rfl⟩, rfl, rfl, rfl, rfl, rfl⟩

theorem meets_easy (hash : Hash) : meets hash (Vector.replicate 32 255) = true := by
  rw [meets_iff]
  have hlt := Words.beNat_lt hash.toList
  have htop : Words.beNat (Vector.replicate 32 (255 : UInt8)).toList = 256 ^ 32 - 1 := by
    decide +kernel
  rw [Vector.length_toList] at hlt
  omega

def theSlot : Fin sampleConfig.slots := ⟨0, by decide⟩

def theRow : Fin sampleConfig.rows := ⟨0, by decide⟩

theorem Mines.setPhase {m : Machine sampleConfig Unit} {state : StratumState} {job : Job}
    (h : Mines m state job) (i : Fin sampleConfig.slots) (phase : Phase) :
    Mines (m.setPhase i phase) state job :=
  ⟨⟨h.main, h.link, h.failure, h.draining, h.stop, h.en1, h.en2Size, h.nextTarget, h.haveTarget,
    h.authorized⟩, h.work, h.generation, h.epoch, h.en2, h.known, h.id, h.sv1, h.target,
    h.activated⟩

/-- The worker scans the first nonce of a job that is new to it and holds on to
its result. -/
theorem Mines.scan (known : List (Text × Json)) {m : Machine sampleConfig Unit}
    {state : StratumState} {job : Job} (h : Mines m state job)
    (hphase : (m.workers theSlot).phase = .checking)
    (hnew : sameCount job.generation (m.workers theSlot).generation = false) :
    ReflTransGen (Step (sampleEnv known)) m
      ({ m with trace := m.trace ++ [Event.scanned theSlot job 0 1] }.setWorker theSlot
        { phase := .scanned job { hashes := 1, nonces := [0] }, generation := job.generation
          cursor := 1 }) := by
  have hadopt : (m.workers theSlot).adopt job =
      { m.workers theSlot with generation := job.generation, cursor := 0 } := by
    rw [Worker.adopt, hnew]
    rfl
  have hscan : ReflTransGen (Step (sampleEnv known)) m (m.scannedRange theSlot job) :=
    worker_scan hphase h.stop h.work h.sv1 rfl
      (by
        rw [hadopt]
        exact (by decide : ¬ (0 : UInt64) > 0x100000000000000 - (1 : UInt32).toUInt64))
      (by rw [hadopt]; exact (by decide : rangeOverflows ((0 : Nat).toUInt64 <<< 56 ||| 0) 1 = false))
  have hnonces : (nonceRange 0 1).filter (hits job.work) = [0] := by
    have hhit : hits job.work 0 = true := by
      rw [hits, h.target]
      exact meets_easy _
    rw [show nonceRange 0 1 = [0] from rfl, List.filter_cons_of_pos hhit, List.filter_nil]
  have hscanned : m.scannedRange theSlot job =
      { m with trace := m.trace ++ [Event.scanned theSlot job 0 1] }.setWorker theSlot
        { phase := .scanned job { hashes := 1, nonces := [0] }, generation := job.generation
          cursor := 1 } := by
    simp only [Machine.scannedRange, hadopt]
    rw [← hnonces]
    rfl
  rwa [hscanned] at hscan

/-- The worker scans the first nonce of a job that is new to it. -/
theorem Mines.round (known : List (Text × Json)) {m : Machine sampleConfig Unit}
    {state : StratumState} {job : Job} (h : Mines m state job)
    (hphase : (m.workers theSlot).phase = .checking)
    (hnew : sameCount job.generation (m.workers theSlot).generation = false) (hroom : m.found.length < 8192) :
    ∃ m' : Machine sampleConfig Unit, ReflTransGen (Step (sampleEnv known)) m m' ∧
      Mines m' state job ∧ m'.found = m.found ++ [Found.mk job 0 theRow] ∧
      m'.trace = m.trace ++ [Event.scanned theSlot job 0 1] ∧ m'.ledger = m.ledger ∧
      m'.nextId = m.nextId ∧ (m'.workers theSlot).phase = .checking ∧
      (m'.workers theSlot).generation = job.generation := by
  have hscan := h.scan known hphase hnew
  refine ⟨_, hscan.tail (.worker theSlot (.push _ job { hashes := 1, nonces := [0] } ?_)), ?_⟩
  · rw [workers_setWorker]
  · unfold Machine.pushFound
    rw [if_neg (by simp [Machine.setWorker]; omega)]
    refine ⟨⟨⟨h.main, h.link, h.failure, h.draining, h.stop, h.en1, h.en2Size, h.nextTarget,
      h.haveTarget, h.authorized⟩, h.work, h.generation, h.epoch, h.en2, h.known, h.id, h.sv1,
      h.target, h.activated⟩, rfl, rfl, rfl, rfl, ?_, ?_⟩
    · rw [workers_setPhase]
    · simp [Machine.setPhase, Machine.setWorker]

theorem Mines.checkShare {m : Machine sampleConfig Unit} {state : StratumState} {job : Job}
    (h : Mines m state job) (hroom : m.ledger.pending.entries.length < 4096) (nonce : UInt64) :
    ∃ n, m.checkShare (Found.mk job nonce theRow) = .ok (some n) := by
  have hvalid : m.link.valid job = true := by
    rw [h.link]
    simp [Link.valid, StratumState.valid, h.authorized, h.epoch, h.known, h.generation]
  have hspace : ¬ m.ledger.pending.entries.length ≥ 4096 := not_le.mpr hroom
  simp only [Machine.checkShare, h.draining, hvalid, hspace, blake2b256_header, ok_bind, h.target,
    meets_easy]
  exact ⟨_, rfl⟩

/-- The worker scans the first nonce of a job that is new to it, and the share
goes out. -/
theorem Mines.send (known : List (Text × Json)) {m : Machine sampleConfig Unit}
    {state : StratumState} {job : Job} (h : Mines m state job)
    (hphase : (m.workers theSlot).phase = .checking)
    (hnew : sameCount job.generation (m.workers theSlot).generation = false) (hfound : m.found = [])
    (hroom : m.ledger.pending.entries.length < 4096) :
    ∃ (m' : Machine sampleConfig Unit) (n : Nat) (share : Share),
      ReflTransGen (Step (sampleEnv known)) m m' ∧ Mines m' state job ∧ m'.found = [] ∧
      m'.ledger = (m.ledger.addCandidates n).submit m.nextId theRow ∧ m'.nextId = m.nextId + 1 ∧
      m'.trace = m.trace ++ [Event.scanned theSlot job 0 1,
        .submitted m.nextId share (Found.mk job 0 theRow)] ∧
      (m'.workers theSlot).phase = .checking ∧
      (m'.workers theSlot).generation = job.generation := by
  obtain ⟨m₁, hround, hmines, hfound₁, htrace, hledger, hnext, hphase₁, hgeneration⟩ :=
    h.round known hphase hnew (by rw [hfound]; decide)
  rw [hfound] at hfound₁
  obtain ⟨n, hcheck⟩ := hmines.checkShare (by rw [hledger]; exact hroom) 0
  refine ⟨_, n, .sv1 (sampleEnv known).user job.id job.en2 job.ntime (hex (Words.leBytes 8 0)),
    hround.trans (iteration_submit hmines.main hmines.failure hmines.link hfound₁ hcheck),
    ⟨⟨rfl, hmines.link, hmines.failure, hmines.draining, hmines.stop, hmines.en1, hmines.en2Size,
      hmines.nextTarget, hmines.haveTarget, hmines.authorized⟩, hmines.work, hmines.generation,
      hmines.epoch, hmines.en2, hmines.known, hmines.id, hmines.sv1, hmines.target,
      hmines.activated⟩, rfl, ?_, ?_, ?_, hphase₁, hgeneration⟩
  · simp only [Machine.record, Machine.addCandidates, hledger, hnext]
  · simp only [Machine.record, Machine.addCandidates, hnext]
  · simp only [Machine.record, Machine.addCandidates, htrace, hnext, List.append_assoc]
    rfl

/-- The connection hears a message that the session has no use for. -/
theorem Mines.hear (known : List (Text × Json)) {m : Machine sampleConfig Unit}
    {state : StratumState} {job : Job} (h : Mines m state job) (hfound : m.found = [])
    {line : Text} {message : Json} (hread : Link.read (sampleEnv known) (.sv1 [] state)
      [lineBytes line] .again = .ok ([message], .sv1 [] state))
    (hreceive : state.receive message = .ok (none, state)) :
    ∃ m' : Machine sampleConfig Unit, ReflTransGen (Step (sampleEnv known)) m m' ∧
      Mines m' state job ∧ m'.found = [] ∧ m'.workers = m.workers ∧
      m'.trace = m.trace ++ [Event.received message] ∧ m'.ledger = m.ledger.account message ∧
      m'.nextId = m.nextId := by
  have hsteps := iteration_deliver h.main h.failure h.link hread hreceive
    (by rw [hfound]; exact fun f hf => absurd hf List.not_mem_nil)
  have hquiet : (!m.draining && state.authorized && ((none : Option Job).isSome || !m.activated)) =
      false := by
    rw [h.activated]
    simp
  have hdelivered : m.delivered message state none =
      { m with
        trace := m.trace ++ [Event.received message], link := .sv1 [] state
        ledger := m.ledger.account message } := by
    unfold Machine.delivered Machine.publish
    exact if_neg (by rw [hquiet]; exact Bool.false_ne_true)
  rw [hdelivered] at hsteps
  exact ⟨_, hsteps, ⟨⟨rfl, rfl, h.failure, h.draining, h.stop, h.en1, h.en2Size, h.nextTarget,
    h.haveTarget, h.authorized⟩, h.work, h.generation, h.epoch, h.en2, h.known, h.id, h.sv1,
    h.target, h.activated⟩, rfl, rfl, rfl, rfl, rfl⟩

/-- The connection mines its first job, and no nonce has been scanned yet. -/
theorem sample_mines (known : List (Text × Json)) :
    ∃ (m : Machine sampleConfig Unit) (state : StratumState) (job : Job),
      Run (sampleEnv known) (.sv1 [] {}) {} m ∧ Mines m state job ∧ state.generation = 1 ∧
      m.found = [] ∧ m.ledger = {} ∧ m.nextId = 10 ∧
      m.workers theSlot = { phase := .checking } ∧
      m.trace = [.received subscribed, .received authorized, .received easy, .received notice] := by
  obtain ⟨m₁, hrun, hconnected, hworkers, hfound, hledger, hnext, htrace⟩ :=
    sample_connected known
  obtain ⟨m₂, state, job, hnotify, hmines, hgeneration, -, hfound₂, hworkers₂, htrace₂, hledger₂,
    hnext₂⟩ := hconnected.notify known (by rw [hfound]; simp)
  have hconstruct : Step (sampleEnv known) m₂ (m₂.setPhase theSlot .checking) :=
    .worker theSlot (.construct m₂ (by rw [hworkers₂, hworkers]))
  refine ⟨m₂.setPhase theSlot .checking, state, job, (hrun.trans hnotify).tail hconstruct,
    hmines.setPhase theSlot .checking, hgeneration, hfound₂, hledger₂.trans hledger,
    hnext₂.trans hnext, ?_, ?_⟩
  · rw [workers_setPhase, hworkers₂, hworkers]
  · rw [show (m₂.setPhase theSlot .checking).trace = m₂.trace from rfl, htrace₂, htrace]
    rfl

/-- The connection has one share outstanding. -/
theorem sample_submitted (known : List (Text × Json)) :
    ∃ (m : Machine sampleConfig Unit) (state : StratumState) (job : Job),
      Run (sampleEnv known) (.sv1 [] {}) {} m ∧ Mines m state job ∧ state.generation = 1 ∧
      m.found = [] ∧ m.ledger.pending = (∅ : AList fun _ : Int => Fin 1).insert 10 theRow ∧
      m.ledger.submissions = [(10, theRow)] ∧ m.ledger.verdicts = [] ∧
      m.ledger.view.total = {} ∧ m.nextId = 11 ∧
      ∃ share, m.trace = [.received subscribed, .received authorized, .received easy,
        .received notice, .scanned theSlot job 0 1, .submitted 10 share (Found.mk job 0 theRow)] := by
  obtain ⟨m₁, state, job, hrun, hmines, hgeneration, hfound, hledger, hnext, hworker, htrace⟩ :=
    sample_mines known
  obtain ⟨m₂, n, share, hsend, hmines₂, hfound₂, hledger₂, hnext₂, htrace₂, hphase₂, hadopted₂⟩ :=
    hmines.send known (by rw [hworker]) (by rw [hworker, hmines.generation, hgeneration]; decide)
      hfound (by rw [hledger]; decide)
  rw [hledger, hnext] at hledger₂
  rw [hnext] at hnext₂
  rw [htrace, hnext] at htrace₂
  refine ⟨m₂, state, job, hrun.trans hsend, hmines₂, hgeneration, hfound₂, ?_, ?_, ?_, ?_, hnext₂,
    share, htrace₂⟩ <;> rw [hledger₂] <;> rfl

def acceptLine : Text := "\x7b\"id\":10,\"result\":true\x7d".toList

/-- The pool accepts the share with id 10. -/
def accept : Json := .object [("id".toList, .integer 10), ("result".toList, .boolean true)]

end Supryolo.Miner
