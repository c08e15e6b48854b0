import Supryolo.Miner.Intake

namespace Supryolo.Miner

variable {rows : Nat} {κ : Type} {env : Env κ} {x : Intake rows κ}

namespace Intake

/-- The messages a stream brings when each of them is read by itself. -/
def brings (env : Env κ) (x : Intake rows κ) (bytes : Bytes) : List Json :=
  (x.reads env (bytewise bytes)).received.drop x.received.length

/-- The read that fails, if one does, has completed no message: every message
was delivered before by a read of its own. -/
def Apart (env : Env κ) : Intake rows κ → List Read → Prop
  | _, [] => True
  | x, r :: rs =>
      match x.link.read env r.chunks r.ending with
      | .error _ => x.brings env (x.link.stream (r :: rs)) = []
      | .ok _ => (x.read env r).error = none → Apart env (x.read env r) rs

/-- No message that the failing read throws away, or that would have come after
it, carries the id of a share that is outstanding at that read. -/
def Spares (env : Env κ) : Intake rows κ → List Read → Prop
  | _, [] => True
  | x, r :: rs =>
      match x.link.read env r.chunks r.ending with
      | .error _ => ∀ message ∈ x.brings env (x.link.stream (r :: rs)), ∀ id,
          message.integerMember? "id".toList = some id → id ∉ x.ledger.pending
      | .ok _ => (x.read env r).error = none → Spares env (x.read env r) rs

theorem brings_extends {bytes : Bytes} :
    Extends x (x.reads env (bytewise bytes)) (x.brings env bytes) := by
  obtain ⟨messages, h⟩ := reads_extends env x (bytewise bytes)
  have hbrings : x.brings env bytes = messages := by
    rw [brings, h.received, List.drop_left]
  rw [hbrings]
  exact h

theorem stream_bytewise (link : Link κ) (bytes : Bytes) : link.stream (bytewise bytes) = bytes := by
  have htaken : link.taken ∘ (fun b => { chunks := [[b]] : Read }) = fun b => [b] := by
    funext b
    cases link <;> rfl
  rw [Link.stream, bytewise, List.map_map, htaken]
  simp [List.flatten_eq_flatMap, List.flatMap_map]

theorem reads_failed {r : Read} {e : String} (herror : x.error = none)
    (hread : x.link.read env r.chunks r.ending = .error e) (rs : List Read) :
    x.reads env (r :: rs) = { x with error := some e } := by
  have hthis : x.read env r = { x with error := some e } := by simp only [read, hread]
  rw [reads_cons herror, hthis, reads_stopped rfl]

/-- Reading byte by byte throws no message away. -/
theorem apart_bytewise (herror : x.error = none) (bytes : Bytes) : x.Apart env (bytewise bytes) := by
  induction bytes generalizing x with
  | nil => trivial
  | cons b bytes ih =>
      rw [bytewise, List.map_cons, Apart]
      split
      · rename_i e hread
        change x.brings env (x.link.stream (bytewise (b :: bytes))) = []
        rw [stream_bytewise, brings, bytewise, List.map_cons, reads_failed herror hread]
        exact List.drop_length
      · exact fun hnext => ih hnext

theorem Apart.spares {rs : List Read} (h : x.Apart env rs) : x.Spares env rs := by
  induction rs generalizing x with
  | nil => trivial
  | cons r rs ih =>
      rw [Apart] at h
      rw [Spares]
      split at h
      · intro message hmessage
        rw [h] at hmessage
        cases hmessage
      · exact fun hnext => ih (h hnext)

end Intake

theorem Tally.sum_count (t : Tally) (o : Outcome) : (t.count o).sum = t.sum + 1 := by
  cases o <;> simp only [Tally.count, Tally.sum] <;> omega

namespace Ledger

variable {l : Ledger rows}

theorem sum_account_le (l : Ledger rows) (message : Json) :
    l.view.total.sum ≤ (l.account message).view.total.sum := by
  rcases l.account_cases message with hsame | ⟨id, row, -, -, hsettle⟩
  · rw [hsame]
  · rw [hsettle]
    exact (Nat.le_succ _).trans (Tally.sum_count _ _).ge

theorem sum_foldl_le (l : Ledger rows) (messages : List Json) :
    l.view.total.sum ≤ (messages.foldl account l).view.total.sum := by
  induction messages generalizing l with
  | nil => exact le_refl _
  | cons message rest ih => exact (sum_account_le l message).trans (ih _)

/-- Messages leave the counters alone exactly when none of them carries the id
of an outstanding share. -/
theorem view_foldl_iff {messages : List Json} :
    l.view = (messages.foldl account l).view ↔ ∀ message ∈ messages, ∀ id,
      message.integerMember? "id".toList = some id → id ∉ l.pending := by
  induction messages generalizing l with
  | nil => simp
  | cons message rest ih =>
      rw [List.foldl_cons, List.forall_mem_cons]
      rcases l.account_cases message with hsame | ⟨id, row, hid, hlookup, hsettle⟩
      · have hunknown := account_unchanged_iff.mp
          (⟨by rw [hsame], by rw [hsame]⟩ : _ ∧ (l.account message).view = l.view)
        rw [hsame, ih, and_iff_right hunknown]
      · -- The share is counted, and no later message takes the count back.
        refine iff_of_false ?_ ?_
        · intro hview
          have hlater := sum_foldl_le (l.account message) rest
          have hcounted : (l.account message).view.total.sum = l.view.total.sum + 1 := by
            rw [hsettle]
            exact Tally.sum_count _ _
          rw [← hview] at hlater
          omega
        · rintro ⟨hunknown, -⟩
          exact hunknown id hid (AList.lookup_isSome.mp (by rw [hlookup]; rfl))

theorem foldl_account_empty (hpending : l.pending = ∅) (messages : List Json) :
    messages.foldl account l = l := by
  induction messages with
  | nil => rfl
  | cons message rest ih =>
      rw [List.foldl_cons, account_of_notMem (by simp [hpending]), ih]

end Ledger

namespace Intake

/-- The counters stand where the messages one by one put them exactly when the
failing read throws no verdict away. -/
theorem view_bytewise_iff (hsteady : x.link.Steady env) (herror : x.error = none)
    (rs : List Read) :
    (x.reads env rs).ledger.view = (x.reads env (bytewise (x.link.stream rs))).ledger.view ↔
      x.Spares env rs := by
  induction rs generalizing x with
  | nil => exact iff_of_true rfl trivial
  | cons r rs ih =>
      rw [Spares]
      split
      · rename_i e hread
        rw [reads_failed herror hread, brings_extends.ledger]
        exact Ledger.view_foldl_iff
      · rename_i result hread
        have hfollows := follows hsteady herror hread
        have hstream : x.link.stream (r :: rs) = x.link.taken r ++ (x.read env r).link.stream rs := by
          rw [Link.stream, Link.stream, hfollows.taken]
          rfl
        rw [hstream, reads_bytewise_append, reads_cons herror]
        cases hnext : (x.read env r).error with
        | some e =>
            have hstopped : (x.reads env (bytewise (x.link.taken r))).error.isSome = true := by
              rw [hfollows.error, hnext]
              rfl
            rw [reads_stopped (by rw [hnext]; rfl), reads_stopped hstopped, hfollows.ledger]
            exact iff_of_true rfl (by simp)
        | none =>
            rw [hfollows.same hnext, ih (hfollows.steady hnext) hnext]
            simp

/-- With no share outstanding there is nothing to lose. -/
theorem reads_ledger_of_empty (hpending : x.ledger.pending = ∅) (rs : List Read) :
    (x.reads env rs).ledger = x.ledger := by
  obtain ⟨messages, h⟩ := reads_extends env x rs
  rw [h.ledger, Ledger.foldl_account_empty hpending]

theorem spares_of_empty (hpending : x.ledger.pending = ∅) (rs : List Read) :
    x.Spares env rs := by
  induction rs generalizing x with
  | nil => trivial
  | cons r rs ih =>
      rw [Spares]
      split
      · simp [hpending]
      · intro hnext
        obtain ⟨messages, h⟩ := read_extends env x r
        refine ih ?_
        rw [h.ledger, Ledger.foldl_account_empty hpending, hpending]

end Intake

variable {cfg : Config} {m m' : Machine cfg κ} {start : View cfg.rows}

def Link.Calm (env : Env κ) : Link κ → Prop
  | .sv1 buffer _ => '\n' ∉ buffer
  | .sv2 session => session.Calm env.foreign

theorem Link.Calm.read {link link' : Link κ} {chunks : List Bytes} {ending : Ending}
    {messages : List Json} (hcalm : link.Calm env)
    (hread : link.read env chunks ending = .ok (messages, link')) : link'.Calm env := by
  cases link with
  | sv1 buffer state =>
      obtain ⟨⟨out, left⟩, hlines, hread⟩ := Loops.bind_eq_ok.mp hread
      obtain ⟨-, rfl⟩ := Prod.mk.inj (Loops.pure_eq_ok.mp hread)
      exact Intake.read_left hcalm hlines
  | sv2 session =>
      obtain ⟨bytes, -, hread⟩ := Loops.bind_eq_ok.mp hread
      obtain ⟨⟨out, session'⟩, hreceive, hread⟩ := Loops.bind_eq_ok.mp hread
      obtain ⟨-, rfl⟩ := Prod.mk.inj (Loops.pure_eq_ok.mp hread)
      exact Sv2.Session.Calm.receive hcalm hreceive

theorem calm_step (hstep : Step env m m') (h : m.link.Calm env) : m'.link.Calm env := by
  cases hstep.effect with
  | idle n hlink => rw [hlink]; exact h
  | received chunks ending messages hread => exact h.read hread
  | handledSv1 message buffer state state' job hlink hlink' =>
      rw [hlink] at h
      rw [hlink']
      exact h
  | handledSv2 message session hlink hlink' =>
      rw [hlink] at h
      rw [hlink']
      exact h
  | sentSv1 f n buffer state hcheck hlink hlink' =>
      rw [hlink] at h
      rw [hlink']
      exact h
  | sentSv2 f n session session' hcheck hlink hlink' hlimit hsubmit =>
      rw [hlink] at h
      rw [hlink']
      exact Sv2.Session.Calm.submit h hsubmit

theorem calm_of_run {link : Link κ} (hlink : link.Fresh) (hrun : Run env link start m) :
    m.link.Calm env := by
  induction hrun with
  | refl =>
      cases hlink with
      | sv1 => exact List.not_mem_nil
      | sv2 state first host port user rate =>
          exact Sv2.Session.calm_start env.foreign state first host port user rate
  | tail _ hstep ih => exact calm_step hstep ih

/-- Before the channel is open there is no share to lose. -/
theorem steady_of_run {link : Link κ} (hlink : link.Fresh) (hrun : Run env link start m)
    (hqueued : m.queued = []) : m.link.Steady env ∨ m.ledger.pending = ∅ := by
  have hcalm := calm_of_run hlink hrun
  have hsynced := synced_of_run hlink hrun
  cases hsv2 : m.link with
  | sv1 buffer state =>
      rw [hsv2] at hcalm
      exact Or.inl hcalm
  | sv2 session =>
      rw [hsv2] at hcalm
      by_cases hopen : session.phase = 3
      · exact Or.inl ⟨hopen, hcalm.waits (by omega)⟩
      · have hagree := hsynced.agree session hsv2
        have hnone : session.outstanding = [] := by
          rw [Sv2.Session.outstanding, hcalm.pending hopen, List.map_nil]
        rw [hqueued, hnone] at hagree
        have hentries : m.ledger.pending.entries = [] := by
          simpa [Ledger.outstanding, Sv2.sharesIn] using hagree.eq_nil
        exact Or.inr (AList.ext hentries)

/-- The connection as its reads see it. -/
def Machine.intake (m : Machine cfg κ) : Intake cfg.rows κ where
  link := m.link
  ledger := m.ledger
  received := m.received
  error := match m.main with
    | .ended error => error
    | _ => none

private theorem publish_intake (m : Machine cfg κ) (authorized fresh : Bool)
    (main : Main cfg.rows) :
    ({ m.publish authorized fresh with main := main } : Machine cfg κ).intake =
        ({ m with main := main } : Machine cfg κ).intake ∧
      (m.publish authorized fresh).found = m.found ∧
      (m.publish authorized fresh).failure = m.failure := by
  unfold Machine.publish
  split <;> exact ⟨rfl, rfl, rfl⟩

private theorem intake_handle {message : Json} {next : Machine cfg κ} {rest : List Json}
    (hmain : m.main = .handling (message :: rest)) (h : m.handleMessage message = .ok next) :
    ({ next with main := .handling rest } : Machine cfg κ).intake = m.intake.handle message ∧
      next.found = m.found ∧ next.failure = m.failure := by
  rcases handleMessage_ok h with
    ⟨buffer, state, state', job, hlink, hreceive, rfl⟩ | ⟨session, hlink, rfl⟩
  · obtain ⟨hintake, hfound, hfailure⟩ := publish_intake
      { m with
        trace := m.trace ++ [Event.received message], link := .sv1 buffer state'
        ledger := m.ledger.account message } state'.authorized job.isSome (.handling rest)
    refine ⟨hintake.trans ?_, hfound, hfailure⟩
    simp [Machine.intake, Intake.handle, Machine.received, hmain, hlink, hreceive]
  · obtain ⟨hintake, hfound, hfailure⟩ := publish_intake
      { m with
        trace := m.trace ++ [Event.received message], link := .sv2 session
        ledger := m.ledger.account message } session.current.isSome session.current.isSome
        (.handling rest)
    refine ⟨hintake.trans ?_, hfound, hfailure⟩
    simp [Machine.intake, Intake.handle, Machine.received, hmain, hlink]

private theorem intake_refused {message : Json} {e : String}
    (h : m.handleMessage message = .error e) :
    m.intake.handle message = (m.finish (some e)).intake := by
  obtain ⟨buffer, state, hlink⟩ := handleMessage_error h
  simp only [Machine.handleMessage, hlink] at h
  cases hreceive : state.receive message with
  | error e' =>
      rw [hreceive] at h
      obtain rfl := Except.error.inj h
      simp only [Intake.handle, Machine.intake, Machine.finish, hlink, hreceive]
      rfl
  | ok result =>
      rw [hreceive] at h
      cases h

/-- The message loop of the machine is the one of the intake. -/
theorem handleAll_steps (env : Env κ) {messages : List Json} (hmain : m.main = .handling messages) :
    ∃ m', Relation.ReflTransGen (Step env) m m' ∧ m'.intake = m.intake.handleAll messages ∧
      m'.found = m.found ∧ m'.failure = m.failure ∧
      (m'.intake.error = none → m'.main = .handling []) := by
  induction messages generalizing m with
  | nil => exact ⟨m, .refl, rfl, rfl, rfl, fun _ => hmain⟩
  | cons message rest ih =>
      have hopen : m.intake.error = none := by simp only [Machine.intake, hmain]
      rw [Intake.handleAll_cons hopen]
      cases hhandle : m.handleMessage message with
      | error e =>
          rw [intake_refused hhandle, Intake.handleAll_stopped rfl]
          refine ⟨m.finish (some e), .single (.main (.handleFailed m message rest e hmain hhandle)),
            rfl, rfl, rfl, ?_⟩
          intro hnone
          cases hnone
      | ok next =>
          obtain ⟨hintake, hfound, hfailure⟩ := intake_handle hmain hhandle
          obtain ⟨m', hsteps, hm', hfound', hfailure', hdone⟩ :=
            ih (m := { next with main := .handling rest }) rfl
          rw [hintake] at hm'
          exact ⟨m', .head (.main (.handle m next message rest hmain hhandle)) hsteps, hm',
            hfound'.trans hfound, hfailure'.trans hfailure, hdone⟩

/-- With nothing to submit, an iteration goes from its messages to the next
read. -/
theorem iteration_idle (env : Env κ) (hmain : m.main = .handling []) (hfound : m.found = [])
    (hfailure : m.failure = "") :
    Relation.ReflTransGen (Step env) m { m with main := .polling } := by
  have hcollect : MainStep env { m with main := .collecting } { m with main := .submitting [] } := by
    have hsame : ({ m with main := .submitting [] } : Machine cfg κ) =
        { m with main := .submitting m.found, found := [] } := by rw [hfound]
    rw [hsame]
    exact .collect _ rfl hfailure
  refine .head (.main (.handled m hmain)) (.head (.main hcollect) ?_)
  refine .head (.main (.submitted _ rfl)) (.head (.main (.wait _ rfl)) ?_)
  exact .single (.main (.iterate _ false true false rfl rfl (by simp)))

/-- Any reads can follow each other while no share is found. -/
theorem reads_steps (env : Env κ) (hmain : m.main = .polling) (hfound : m.found = [])
    (hfailure : m.failure = "") (rs : List Read) :
    ∃ m', Relation.ReflTransGen (Step env) m m' ∧ m'.intake = m.intake.reads env rs := by
  induction rs generalizing m with
  | nil => exact ⟨m, .refl, rfl⟩
  | cons r rs ih =>
      have hopen : m.intake.error = none := by simp only [Machine.intake, hmain]
      cases hread : m.link.read env r.chunks r.ending with
      | error e =>
          refine ⟨({ m with parting := m.link.parting env r.chunks r.ending } : Machine cfg κ).finish
              (some e),
            .single (.main (.pollFailed m r.chunks r.ending e hmain hread)), ?_⟩
          rw [Intake.reads_failed hopen hread]
          rfl
      | ok result =>
          obtain ⟨messages, link⟩ := result
          have hpoll := MainStep.poll m r.chunks r.ending messages link hmain hread
          have hthis : m.intake.read env r =
              ({ m with link := link, main := .handling messages } : Machine cfg κ).intake.handleAll
                messages := by
            simp only [Intake.read, Machine.intake, hread, hmain]
            rfl
          obtain ⟨m₁, hsteps, hm₁, hfound₁, hfailure₁, hdone⟩ := handleAll_steps env
            (m := { m with link := link, main := .handling messages }) rfl
          rw [Intake.reads_cons hopen, hthis, ← hm₁]
          cases hnext : m₁.intake.error with
          | some e =>
              rw [Intake.reads_stopped (by rw [hnext]; rfl)]
              exact ⟨m₁, .head (.main hpoll) hsteps, rfl⟩
          | none =>
              have hhandled := hdone hnext
              have hidle := iteration_idle env hhandled (hfound₁.trans hfound)
                (hfailure₁.trans hfailure)
              obtain ⟨m₂, hrest, hm₂⟩ := ih (m := { m₁ with main := .polling }) rfl
                (hfound₁.trans hfound) (hfailure₁.trans hfailure)
              refine ⟨m₂, (Relation.ReflTransGen.head (.main hpoll) hsteps).trans
                (hidle.trans hrest), ?_⟩
              rw [hm₂]
              simp only [Machine.intake, hhandled]
              rfl

/-- A read that throws takes with it the messages it has gathered. So, from any
state of any run and however the bytes of the pool fall into reads before the
connection ends, the counters are those of reads that deliver every message before
the failure, if and only if the failing read throws away no message with the id of
an outstanding share. -/
theorem verdicts_survive_iff {link : Link κ} (hlink : link.Fresh) (hrun : Run env link start m)
    (hmain : m.main = .polling) {rs own : List Read}
    (hstream : m.link.stream own = m.link.stream rs) (hown : m.intake.Apart env own) :
    (m.intake.reads env rs).ledger.view = (m.intake.reads env own).ledger.view ↔
      m.intake.Spares env rs := by
  have hopen : m.intake.error = none := by simp only [Machine.intake, hmain]
  rcases steady_of_run hlink hrun (queued_of_main hmain (by simp)) with hsteady | hpending
  · have hall := (Intake.view_bytewise_iff (x := m.intake) hsteady hopen own).mpr hown.spares
    rw [hall, ← Intake.view_bytewise_iff (x := m.intake) hsteady hopen rs]
    exact hstream ▸ Iff.rfl
  · rw [Intake.reads_ledger_of_empty (x := m.intake) hpending,
      Intake.reads_ledger_of_empty (x := m.intake) hpending]
    exact iff_of_true rfl (Intake.spares_of_empty hpending rs)

/-- A read that ends with the end of the stream fails whatever it has gathered. -/
theorem Link.read_closed {buffer : Text} {state : StratumState} {chunks : List Bytes}
    {result : List Json × Link κ}
    (h : Link.read env (.sv1 buffer state) chunks .again = .ok result) :
    Link.read env (.sv1 buffer state) chunks .closed = .error "pool closed connection" := by
  obtain ⟨lines, hlines, -⟩ := Loops.bind_eq_ok.mp h
  obtain ⟨gathered, hgathered, -⟩ := Loops.bind_eq_ok.mp hlines
  simp only [Link.read, Miner.read, hgathered]
  rfl

def acceptEnv : Env Unit := sampleEnv [(acceptLine, accept)]

/-- The answer and the end of the stream in one read. -/
def answerAndClose : List Read := [{ chunks := [lineBytes acceptLine], ending := .closed }]

/-- The answer, and the end of the stream at the next read. -/
def answerThenClose : List Read :=
  [{ chunks := [lineBytes acceptLine] }, { chunks := [], ending := .closed }]

private theorem read_accept (state : StratumState) :
    Link.read acceptEnv (.sv1 [] state) [lineBytes acceptLine] .again =
      .ok ([accept], .sv1 [] state) :=
  read_line (by decide) (by decide) (by decide) (by decide) rfl

private theorem read_answer (state : StratumState) {l : Ledger sampleConfig.rows}
    (received : List Json) (hlookup : l.pending.lookup 10 = some theRow) :
    (⟨.sv1 [] state, l, received, none⟩ : Intake _ _).read acceptEnv
        { chunks := [lineBytes acceptLine] } =
      ⟨.sv1 [] state, l.settle 10 theRow .accepted, received ++ [accept], none⟩ := by
  have hreceive : state.receive accept = .ok (none, state) := rfl
  have haccount : l.account accept = l.settle 10 theRow .accepted := by
    have hid : accept.integerMember? "id".toList = some 10 := rfl
    have houtcome : outcomeOf accept = .accepted := rfl
    simp only [Ledger.account, hid, hlookup, houtcome]
  simp only [Intake.read, read_accept]
  rw [Intake.handleAll_cons rfl]
  simp only [Intake.handle, hreceive, haccount]
  rfl

/-- The connection is about to read, with one share outstanding. -/
private theorem sample_polling :
    ∃ (m : Machine sampleConfig Unit) (state : StratumState),
      Run acceptEnv (.sv1 [] {}) {} m ∧ m.main = .polling ∧ m.found = [] ∧ m.failure = "" ∧
      m.intake = ⟨.sv1 [] state, m.ledger, m.received, none⟩ ∧
      m.ledger.pending.lookup 10 = some theRow ∧ m.ledger.view.total = {} := by
  obtain ⟨m, state, job, hrun, hmines, -, hfound, hpending, -, -, htotal, -⟩ :=
    sample_submitted [(acceptLine, accept)]
  have hiterate : MainStep acceptEnv m { m with main := .polling } :=
    .iterate m false true false hmines.main rfl (by simp)
  refine ⟨{ m with main := .polling }, state, hrun.tail (.main hiterate), rfl, hfound,
    hmines.failure, ?_, ?_, htotal⟩
  · simp only [Machine.intake, hmines.link]
  · change m.ledger.pending.lookup 10 = some theRow
    rw [hpending]
    exact AList.lookup_insert _

/-- A share whose answer has been handled is counted when the pool closes the
connection afterwards. -/
theorem verdicts_survive_answer :
    ∃ m : Machine sampleConfig Unit, Run acceptEnv (.sv1 [] {}) {} m ∧
      m.ledger.pending.lookup 10 = some theRow ∧
      (m.intake.reads acceptEnv answerThenClose).ledger.view =
        (m.intake.reads acceptEnv (bytewise (lineBytes acceptLine))).ledger.view := by
  obtain ⟨m, state, hrun, hmain, -, -, hintake, hlookup, -⟩ := sample_polling
  have hlink : m.link = .sv1 [] state := congrArg Intake.link hintake
  have hopen : m.intake.error = none := by rw [hintake]
  have hstream : m.link.stream (bytewise (lineBytes acceptLine)) = m.link.stream answerThenClose := by
    rw [Intake.stream_bytewise, hlink]
    simp [Link.stream, Link.taken, answerThenClose]
  have hspares : m.intake.Spares acceptEnv answerThenClose := by
    rw [hintake, answerThenClose]
    simp only [Intake.Spares, read_accept, read_answer state m.received hlookup]
    intro _
    have hclosed : Link.read acceptEnv (.sv1 [] state) [] .closed =
      .error "pool closed connection" := rfl
    simp only [hclosed]
    intro message hmessage
    simp [Intake.brings, Link.stream, Link.taken, bytewise, Intake.reads] at hmessage
  exact ⟨m, hrun, hlookup, (verdicts_survive_iff .sv1 hrun hmain hstream
    (Intake.apart_bytewise hopen _)).mpr hspares⟩

/-- When one read brings the answer and the end of the stream, the share is not
counted. -/
theorem close_loses_verdict :
    ∃ (m together apart : Machine sampleConfig Unit), Run acceptEnv (.sv1 [] {}) {} m ∧
      Relation.ReflTransGen (Step acceptEnv) m together ∧
      together.intake = m.intake.reads acceptEnv answerAndClose ∧
      Relation.ReflTransGen (Step acceptEnv) m apart ∧
      apart.intake = m.intake.reads acceptEnv answerThenClose ∧
      m.link.stream answerAndClose = m.link.stream answerThenClose ∧
      together.intake.error = some "pool closed connection" ∧
      apart.intake.error = some "pool closed connection" ∧
      together.ledger.view.total.accepted = 0 ∧ apart.ledger.view.total.accepted = 1 := by
  obtain ⟨m, state, hrun, hmain, hfound, hfailure, hintake, hlookup, htotal⟩ := sample_polling
  have hlink : m.link = .sv1 [] state := congrArg Intake.link hintake
  obtain ⟨together, hsteps, htogether⟩ :=
    reads_steps acceptEnv hmain hfound hfailure answerAndClose
  obtain ⟨apart, hsteps', hapart⟩ := reads_steps acceptEnv hmain hfound hfailure answerThenClose
  have hone : m.intake.reads acceptEnv answerAndClose =
      ⟨.sv1 [] state, m.ledger, m.received, some "pool closed connection"⟩ := by
    rw [hintake, answerAndClose, Intake.reads_failed rfl (Link.read_closed (read_accept state))]
  have htwo : m.intake.reads acceptEnv answerThenClose =
      ⟨.sv1 [] state, m.ledger.settle 10 theRow .accepted, m.received ++ [accept],
        some "pool closed connection"⟩ := by
    rw [hintake, answerThenClose, Intake.reads_cons rfl, read_answer state m.received hlookup]
    rfl
  refine ⟨m, together, apart, hrun, hsteps, htogether, hsteps', hapart, ?_, ?_, ?_, ?_, ?_⟩
  · rw [hlink]
    simp [Link.stream, Link.taken, answerAndClose, answerThenClose]
  · rw [htogether, hone]
  · rw [hapart, htwo]
  · have hledger : together.ledger = m.ledger := congrArg Intake.ledger (htogether.trans hone)
    rw [hledger, htotal]
  · have hledger : apart.ledger = m.ledger.settle 10 theRow .accepted :=
      congrArg Intake.ledger (hapart.trans htwo)
    rw [hledger]
    change (m.ledger.view.total.count .accepted).accepted = 1
    rw [htotal]
    rfl

end Supryolo.Miner
