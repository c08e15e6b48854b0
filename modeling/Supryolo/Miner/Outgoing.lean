import Supryolo.Documents
import Supryolo.Lib.Segments
import Supryolo.Miner.Tickets

/-!
The lines an SV1 connection sends: the requests `mine` opens it with, those of
the submit loop, and how `Socket` in `miner.cpp` writes them. Whatever pieces
the socket takes and however far it gets, a pool that reads what has arrived
finds the first of these requests, and nothing else.
-/

namespace Supryolo.Miner

open Json Loops Segments Words

variable {cfg : Config} {κ : Type} {env : Env κ} {m m' : Machine cfg κ} {start : View cfg.rows}

/-- A call of `send` or of `SSL_write`, with the wait after one that wrote
nothing. -/
inductive SendCall
  | wrote (n : Nat)
  | again
  | failed

/-- What has been written of a text, and whether the loop is through. -/
def sendBytes : List SendCall → Text → Text × Bool
  | _, [] => ([], true)
  | [], _ :: _ => ([], false)
  | .wrote n :: rest, c :: s =>
      let sent := sendBytes rest ((c :: s).drop n)
      ((c :: s).take n ++ sent.1, sent.2)
  | .again :: rest, c :: s => sendBytes rest (c :: s)
  | .failed :: _, _ :: _ => ([], false)

/-- The bytes `send` hands to the socket. -/
def sendLine (j : Json) : Except String Text := do
  let s ← j.dump
  pure (s ++ ['\n'])

/-- What goes out where one text after another is sent, and how many of the calls
of `send` return. -/
def sendAll : List (List SendCall) → List Json → Except String (Text × Nat)
  | _, [] => pure ([], 0)
  | [], _ :: _ => pure ([], 0)
  | attempts :: later, j :: rest => do
      let line ← sendLine j
      let sent := sendBytes attempts line
      if sent.2 then do
        let (more, n) ← sendAll later rest
        pure (sent.1 ++ more, n + 1)
      else pure (sent.1, 0)

theorem sendBytes_prefix (attempts : List SendCall) (s : Text) :
    ∃ rest, s = (sendBytes attempts s).1 ++ rest ∧
      ((sendBytes attempts s).2 = true ↔ rest = []) := by
  fun_induction sendBytes attempts s with
  | case1 => exact ⟨[], rfl, by simp⟩
  | case2 c s => exact ⟨c :: s, rfl, by simp⟩
  | case3 n attempts c s sent ih =>
      obtain ⟨rest, hrest, hdone⟩ := ih
      refine ⟨rest, ?_, hdone⟩
      rw [List.append_assoc, ← hrest, List.take_append_drop]
  | case4 attempts c s ih => exact ih
  | case5 attempts c s => exact ⟨c :: s, rfl, by simp⟩

/-- Every call that returns completes a line, and no other does. -/
theorem sendAll_readable {requests : List Json} (h : ∀ r ∈ requests, r.All Readable)
    (attempts : List (List SendCall)) :
    ∃ out n, sendAll attempts requests = .ok (out, n) ∧
      (completed '\n' out).map readDocument = (requests.take n).map some := by
  induction requests generalizing attempts with
  | nil => exact ⟨[], 0, by cases attempts <;> rfl, rfl⟩
  | cons r rest ih =>
      cases attempts with
      | nil => exact ⟨[], 0, rfl, rfl⟩
      | cons attempts later =>
          obtain ⟨text, htext⟩ := writes_readable (h r List.mem_cons_self)
          have hline : sendLine r = .ok (text ++ ['\n']) := by
            rw [sendLine, htext.dump]
            rfl
          obtain ⟨left, hleft, hdone⟩ := sendBytes_prefix attempts (text ++ ['\n'])
          rw [sendAll, hline, ok_bind]
          cases hsent : (sendBytes attempts (text ++ ['\n'])).2 with
          | true =>
              rw [hdone.mp hsent, List.append_nil] at hleft
              obtain ⟨out, n, hout, hread⟩ :=
                ih (fun r hr => h r (List.mem_cons_of_mem _ hr)) later
              refine ⟨text ++ '\n' :: out, n + 1, ?_, ?_⟩
              · simp only [hsent, if_true, hout, ok_bind, ← hleft]
                simp [pure, Except.pure]
              · rw [completed_cons htext.line, List.map_cons, List.take_succ_cons, List.map_cons,
                  hread, htext.document]
          | false =>
              -- The line has not ended: what is missing of it is not empty.
              refine ⟨_, 0, by simp only [hsent]; rfl, ?_⟩
              have hne : left ≠ [] := by
                intro hnil
                rw [hdone.mpr hnil] at hsent
                cases hsent
              have hwithin : '\n' ∉ (sendBytes attempts (text ++ ['\n'])).1 := by
                intro hmem
                have hlast := congrArg List.dropLast hleft
                rw [List.dropLast_concat, List.dropLast_append_of_ne_nil hne] at hlast
                apply htext.line
                rw [hlast]
                exact List.mem_append_left _ hmem
              rw [completed_of_not_mem hwithin]
              rfl

def request (id : Int) (method : String) (params : List Json) : Json :=
  .object [("id".toList, .integer id), ("method".toList, .string method.toList),
    ("params".toList, .array params)]

/-- What is sent before the connection loop begins. -/
def openingRequests (user password : Text) : List Json :=
  [request 1 "mining.subscribe" [.string "supryolo/0.2.1".toList],
    request 2 "mining.extranonce.subscribe" [],
    request 3 "mining.authorize" [.string user, .string password]]

def submitRequest (id : Int) : Share → Option Json
  | .sv1 user job en2 ntime nonce => some (request id "mining.submit"
      [.string user, .string job, .string en2, .string ntime, .string nonce])
  | .sv2 _ _ _ _ _ _ => none

/-- The requests the submit loop has sent. -/
def Machine.submitRequests (m : Machine cfg κ) : List Json :=
  m.trace.filterMap fun
    | .submitted id share _ => submitRequest id share
    | _ => none

theorem submitOne_submitRequests {f : Found cfg.rows} {next : Machine cfg κ} {buffer : Text}
    {state : StratumState} (hlink : m.link = .sv1 buffer state)
    (hsubmit : m.submitOne env f = .ok next) :
    next.submitRequests = m.submitRequests ∨ (∃ n, m.checkShare f = .ok (some n)) ∧
      next.submitRequests = m.submitRequests ++ [request m.nextId "mining.submit"
        [.string env.user, .string f.job.id, .string f.job.en2, .string f.job.ntime,
          .string (hex (leBytes 8 f.nonce))]] := by
  obtain ⟨checked, hcheck, hsubmit⟩ := bind_eq_ok.mp hsubmit
  cases checked with
  | none =>
      rw [← pure_eq_ok.mp hsubmit]
      exact Or.inl rfl
  | some n =>
      refine Or.inr ⟨⟨n, hcheck⟩, ?_⟩
      dsimp only at hsubmit
      unfold Machine.sendShare at hsubmit
      rw [show (m.addCandidates n).link = m.link from rfl, hlink] at hsubmit
      rw [← pure_eq_ok.mp hsubmit]
      simp [Machine.submitRequests, Machine.record, Machine.addCandidates, submitRequest]

theorem WorkerStep.submitRequests {i : Fin cfg.slots} (h : WorkerStep i m m') :
    m'.submitRequests = m.submitRequests := by
  cases h with
  | take =>
      unfold Machine.takeWork
      split
      · rfl
      · split
        · unfold Machine.syncCursor
          dsimp only
          split <;> split <;> simp [Machine.submitRequests, Machine.setPhase, Machine.setWorker]
        · rfl
  | scan j j' reserved start count outcome =>
      cases outcome <;> simp [Machine.submitRequests, Machine.scanRange, Machine.setWorker]
  | push j r =>
      unfold Machine.pushFound
      split <;> rfl
  | _ => rfl

theorem lineStep_parsed {parse : Parser} {buffer left : Text} {message : Json}
    (h : lineStep parse () buffer = .ok (.take () left (some message))) :
    ∃ line, parse line = .ok message := by
  unfold lineStep at h
  dsimp only at h
  split_ifs at h
  · cases h
  · cases hparse : parse (buffer.takeWhile (· ≠ '\n')) with
    | error e =>
        rw [hparse] at h
        cases h
    | ok parsed =>
        rw [hparse] at h
        cases h
        exact ⟨_, hparse⟩
  · cases h

theorem read_parsed {parse : Parser} {buffer rest : Text} {chunks : List Text} {ending : Ending}
    {messages : List Json} (h : read parse buffer chunks ending = .ok (messages, rest)) :
    ∀ message ∈ messages, ∃ line, parse line = .ok message := by
  obtain ⟨result, hresult, h⟩ := bind_eq_ok.mp h
  have hgathered : ∀ message ∈ result.1, ∃ line, parse line = .ok message := by
    refine foldlM_invariant (I := fun r : List Json × Text =>
      ∀ message ∈ r.1, ∃ line, parse line = .ok message) ?_ (fun _ hm => absurd hm List.not_mem_nil)
      hresult
    intro before chunk after hbefore hchunk
    obtain ⟨-, hchunk⟩ := guard_eq_ok.mp hchunk
    obtain ⟨⟨items, u, left⟩, hrun, hchunk⟩ := bind_eq_ok.mp hchunk
    obtain ⟨-, hchunk⟩ := guard_eq_ok.mp hchunk
    obtain rfl := pure_eq_ok.mp hchunk
    intro message hmessage
    rcases List.mem_append.mp hmessage with hmessage | hmessage
    · exact hbefore message hmessage
    · obtain ⟨_, _, _, _, hstep⟩ := (Incremental.Decoder.run_iff.mp hrun).produced hmessage
      exact lineStep_parsed hstep
  cases ending with
  | again =>
      obtain rfl := pure_eq_ok.mp h
      exact hgathered
  | _ => cases h

/-- The messages that have been read. -/
def Machine.Parsed (env : Env κ) (m : Machine cfg κ) : Prop :=
  (∀ message ∈ m.received, ∃ line, env.parse line = .ok message) ∧
    ∀ messages, m.main = .handling messages →
      ∀ message ∈ messages, ∃ line, env.parse line = .ok message

private theorem Machine.Parsed.same (h : m.Parsed env) (hreceived : m'.received = m.received)
    (hmain : ∀ messages, m'.main = .handling messages → m.main = .handling messages) :
    m'.Parsed env := by
  refine ⟨by rw [hreceived]; exact h.1, ?_⟩
  intro messages hhandling
  exact h.2 messages (hmain messages hhandling)

theorem MainStep.parsed {buffer : Text} {state : StratumState} (hstep : MainStep env m m')
    (hlink : m.link = .sv1 buffer state) (h : m.Parsed env) : m'.Parsed env := by
  cases hstep with
  | iterate expired early later hmain =>
      unfold Machine.beginIteration
      split <;> exact h.same rfl (fun _ hhandling => by cases hhandling)
  | poll chunks ending messages link hmain hread =>
      refine ⟨h.1, ?_⟩
      rintro _ ⟨⟩
      rw [hlink] at hread
      obtain ⟨⟨out, rest⟩, hgathered, hread⟩ := bind_eq_ok.mp hread
      obtain ⟨rfl, -⟩ := Prod.mk.inj (pure_eq_ok.mp hread)
      exact read_parsed hgathered
  | handle next message rest hmain hhandle =>
      have hparsed := h.2 _ hmain
      have hreceived : next.received = m.received ++ [message] := by
        rcases handleMessage_ok hhandle with
          ⟨buffer, state, state', job, -, -, rfl⟩ | ⟨session, -, rfl⟩
        · rw [Machine.received, (publish_sameBooks _ _ _).2.2.2.1]
          simp [Machine.received]
        · rw [Machine.received, (publish_sameBooks _ _ _).2.2.2.1]
          simp [Machine.received]
      refine ⟨?_, ?_⟩
      · intro msg hmsg
        change msg ∈ next.received at hmsg
        rw [hreceived] at hmsg
        rcases List.mem_append.mp hmsg with hmsg | hmsg
        · exact h.1 msg hmsg
        · exact hparsed msg (List.mem_singleton.mp hmsg ▸ List.mem_cons_self)
      · rintro _ ⟨⟩ msg hmsg
        exact hparsed msg (List.mem_cons_of_mem _ hmsg)
  | submit next f rest hmain hsubmit =>
      refine h.same ?_ (fun _ hhandling => by cases hhandling)
      obtain ⟨checked, -, hsubmit⟩ := bind_eq_ok.mp hsubmit
      cases checked with
      | none =>
          rw [← pure_eq_ok.mp hsubmit]
          rfl
      | some n =>
          dsimp only at hsubmit
          unfold Machine.sendShare at hsubmit
          rw [show (m.addCandidates n).link = m.link from rfl, hlink] at hsubmit
          rw [← pure_eq_ok.mp hsubmit]
          simp [Machine.received, Machine.record, Machine.addCandidates]
  | submitFailed f rest e =>
      obtain ⟨n, hn⟩ := afterFailure_idle m f
      rw [hn]
      exact h.same rfl (fun _ hhandling => by cases hhandling)
  | sendBroken f rest e =>
      obtain ⟨n, hn⟩ := afterFailure_idle m f
      rw [hn]
      exact h.same rfl (fun _ hhandling => by cases hhandling)
  | _ => exact h.same rfl (fun _ hhandling => by cases hhandling)

theorem parsed_of_run {buffer : Text} {state : StratumState}
    (hrun : Run env (.sv1 buffer state) start m) : m.Parsed env := by
  induction hrun with
  | refl =>
      refine ⟨fun _ hm => absurd hm List.not_mem_nil, ?_⟩
      intro messages hmain
      cases hmain
  | @tail before next hbefore hstep ih =>
      obtain ⟨buffer', state', hlink⟩ := sv1_of_run hbefore
      cases hstep with
      | main hmain => exact hmain.parsed hlink ih
      | worker i hworker =>
          exact ih.same hworker.received fun _ hmain => hworker.sameConnection.main ▸ hmain

theorem all_member {P : Json → Prop} {message value : Json} {key : Text} (h : message.All P)
    (hvalue : message.member? key = some value) : value.All P := by
  cases message with
  | object members =>
      obtain ⟨entry, hentry, rfl⟩ := Option.map_eq_some_iff.mp hvalue
      exact (all_members.mp h.2 entry (List.mem_of_find?_eq_some hentry)).2
  | _ => cases hvalue

/-- The jobs are announced under texts that are UTF-8. -/
def WellSpelled (v : PoolView) : Prop := ∀ id ∈ v.jobs, IsUtf8 id

theorem WellSpelled.send {v : PoolView} (h : WellSpelled v) {message : Json}
    (hmessage : message.All Spelled) : WellSpelled (v.send message) := by
  have hextranonce (p : List Json) : WellSpelled (v.extranonce p) := by
    unfold PoolView.extranonce
    split <;> exact h
  unfold PoolView.send
  split
  · rename_i method p hmethod hparams
    unfold PoolView.request
    split_ifs
    · exact hextranonce p
    · have hitems := all_items.mp (all_member hmessage hparams).2
      unfold PoolView.notify
      split
      · rename_i id prev c1 c2 rest
        intro key hkey
        rcases (AList.mem_insert _).mp hkey with rfl | hkey
        · exact hitems _ List.mem_cons_self
        · exact h key hkey
      · exact h
    · exact h
  · exact h
  · unfold PoolView.reply
    split
    · exact hextranonce _
    · exact h

theorem wellSpelled_of_run (hparse : ∀ line message, env.parse line = .ok message →
      message.All Spelled) {buffer : Text} {state : StratumState}
    (hrun : Run env (.sv1 buffer state) start m) : WellSpelled m.poolView := by
  have hmessages : ∀ message ∈ m.received, message.All Spelled := by
    intro message hmessage
    obtain ⟨line, hline⟩ := (parsed_of_run hrun).1 message hmessage
    exact hparse line message hline
  have hfold (messages : List Json) (v : PoolView) (hv : WellSpelled v)
      (h : ∀ message ∈ messages, message.All Spelled) : WellSpelled (messages.foldl PoolView.send v) := by
    induction messages generalizing v with
    | nil => exact hv
    | cons message rest ih =>
        exact ih _ (hv.send (h message List.mem_cons_self))
          fun next hnext => h next (List.mem_cons_of_mem _ hnext)
  exact hfold _ _ (fun id hid => absurd hid (AList.notMem_empty id)) hmessages

theorem nib_ascii {c : Char} {nibble : UInt8} (h : nib c = .ok nibble) : c.toNat < 0x80 := by
  have hle {d : Char} (hd : c ≤ d) (hascii : d.toNat < 0x80) : c.toNat < 0x80 :=
    (UInt32.le_iff_toNat_le.mp hd).trans_lt hascii
  unfold nib at h
  split_ifs at h with hdigit hlower hupper
  · exact hle hdigit.2 (by decide)
  · exact hle hlower.2 (by decide)
  · exact hle hupper.2 (by decide)

/-- Hexadecimal digits are ASCII. -/
theorem isUtf8_of_unhex {s : Text} {bytes : Bytes} (h : unhex s = .ok bytes) : IsUtf8 s := by
  obtain ⟨heven, hpairs⟩ := guard_eq_ok.mp h
  rw [not_not] at heven
  clear h
  refine isUtf8_ascii ?_
  induction s using unhexPairs.induct generalizing bytes with
  | case1 high low rest ih =>
      rw [unhexPairs] at hpairs
      obtain ⟨x, hx, hpairs⟩ := bind_eq_ok.mp hpairs
      obtain ⟨y, hy, hpairs⟩ := bind_eq_ok.mp hpairs
      obtain ⟨more, hmore, -⟩ := bind_eq_ok.mp hpairs
      rw [List.forall_mem_cons, List.forall_mem_cons]
      simp only [List.length_cons] at heven
      exact ⟨nib_ascii hx, nib_ascii hy, ih (by omega) hmore⟩
  | case2 text hshort =>
      cases text with
      | nil => exact fun c hc => absurd hc List.not_mem_nil
      | cons high text =>
          cases text with
          | nil => simp at heven
          | cons low rest => exact absurd rfl (hshort high low rest)

theorem request_all {P : Json → Prop} {id : Int} {method : String} {params : List Json}
    (hobject : ∀ members, P (.object members)) (harray : ∀ items, P (.array items))
    (hinteger : ∀ n, P (.integer n)) (hstring : ∀ s, IsUtf8 s → P (.string s))
    (hmethod : ∀ c ∈ method.toList, c.toNat < 0x80) :
    (request id method params).All P ↔ ∀ p ∈ params, p.All P := by
  have hascii {s : Text} (hs : ∀ c ∈ s, c.toNat < 0x80) : P (.string s) :=
    hstring s (isUtf8_ascii hs)
  constructor
  · intro h
    exact all_items.mp ((all_members.mp h.2) ("params".toList, .array params) (by simp)).2.2
  · intro h
    refine ⟨hobject _, all_members.mpr ?_⟩
    simp only [List.forall_mem_cons]
    exact ⟨⟨hascii (by simp), hinteger id⟩, ⟨hascii (by simp), hascii hmethod⟩,
      ⟨hascii (by simp), harray params, all_items.mpr h⟩, by simp⟩

theorem request_readable {id : Int} {method : String} {params : List Json}
    (hmethod : ∀ c ∈ method.toList, c.toNat < 0x80) (hparams : ∀ p ∈ params, p.All Readable) :
    (request id method params).All Readable :=
  (request_all (fun _ => trivial) (fun _ => trivial) (fun _ => trivial) (fun _ hs => hs) hmethod).mpr
    hparams

theorem openingRequests_readable {user password : Text} (huser : IsUtf8 user)
    (hpassword : IsUtf8 password) : ∀ r ∈ openingRequests user password, r.All Readable := by
  simp only [openingRequests, List.forall_mem_cons]
  refine ⟨request_readable (by simp) ?_, request_readable (by simp) (by simp),
    request_readable (by simp) ?_, by simp⟩
  · simp only [List.forall_mem_cons]
    exact ⟨isUtf8_ascii (by simp), by simp⟩
  · simp only [List.forall_mem_cons]
    exact ⟨huser, hpassword, by simp⟩

theorem MainStep.submitRequests {buffer : Text} {state : StratumState} (hstep : MainStep env m m')
    (hlink : m.link = .sv1 buffer state) :
    m'.submitRequests = m.submitRequests ∨ ∃ f rest n, m.main = .submitting (f :: rest) ∧
      m.checkShare f = .ok (some n) ∧ m'.submitRequests = m.submitRequests ++
        [request m.nextId "mining.submit" [.string env.user, .string f.job.id, .string f.job.en2,
          .string f.job.ntime, .string (hex (leBytes 8 f.nonce))]] := by
  cases hstep with
  | iterate expired early later =>
      unfold Machine.beginIteration
      split <;> exact Or.inl rfl
  | handle next message rest hmain hhandle =>
      left
      change next.submitRequests = _
      rcases handleMessage_ok hhandle with
        ⟨buffer, state, state', job, -, -, rfl⟩ | ⟨session, -, rfl⟩
      · rw [Machine.submitRequests, (publish_sameBooks _ _ _).2.2.2.1]
        simp [Machine.submitRequests]
      · rw [Machine.submitRequests, (publish_sameBooks _ _ _).2.2.2.1]
        simp [Machine.submitRequests]
  | submit next f rest hmain hsubmit =>
      rcases submitOne_submitRequests hlink hsubmit with hsame | ⟨⟨n, hcheck⟩, hsent⟩
      · exact Or.inl hsame
      · exact Or.inr ⟨f, rest, n, hmain, hcheck, hsent⟩
  | submitFailed f rest e =>
      obtain ⟨n, hn⟩ := afterFailure_idle m f
      rw [hn]
      exact Or.inl rfl
  | sendBroken f rest e =>
      obtain ⟨n, hn⟩ := afterFailure_idle m f
      rw [hn]
      exact Or.inl rfl
  | _ => exact Or.inl rfl

/-- The fields of a share that goes out: the id is one the pool has announced a
job under, and the others are hexadecimal. -/
theorem share_readable (hspelled : WellSpelled m.poolView) {f : Found cfg.rows} {buffer : Text}
    {state : StratumState} (hlink : m.link = .sv1 buffer state)
    (hknows : m.link.Knows m.poolView f.job) :
    IsUtf8 f.job.id ∧ IsUtf8 f.job.en2 ∧ IsUtf8 f.job.ntime := by
  rw [hlink] at hknows
  obtain ⟨kept, hheader⟩ := StratumState.Knows.made hknows
  obtain ⟨p, -, hheader⟩ := bind_eq_ok.mp hheader
  obtain ⟨a, -, hheader⟩ := bind_eq_ok.mp hheader
  obtain ⟨b, -, hheader⟩ := bind_eq_ok.mp hheader
  obtain ⟨e1, -, hheader⟩ := bind_eq_ok.mp hheader
  obtain ⟨e2, he2, hheader⟩ := bind_eq_ok.mp hheader
  obtain ⟨t, ht, -⟩ := bind_eq_ok.mp hheader
  exact ⟨hspelled _ (StratumState.Knows.announced hknows), isUtf8_of_unhex he2, isUtf8_of_unhex ht⟩

theorem submitRequests_readable (hparse : ∀ line message, env.parse line = .ok message →
      message.All Spelled) (huser : IsUtf8 env.user) (hrun : Run env (.sv1 [] {}) start m) :
    ∀ r ∈ m.submitRequests, r.All Readable := by
  induction hrun with
  | refl => exact fun r hr => absurd hr List.not_mem_nil
  | @tail before next hbefore hstep ih =>
      obtain ⟨buffer, state, hlink⟩ := sv1_of_run hbefore
      cases hstep with
      | worker i hworker =>
          rw [hworker.submitRequests]
          exact ih
      | main hmain =>
          rcases hmain.submitRequests hlink with hsame | ⟨f, rest, n, hsubmitting, hcheck, hsent⟩
          · rw [hsame]
            exact ih
          · rw [hsent]
            have hstands := stands_of_submitting .sv1 hbefore hsubmitting
            obtain ⟨hid, hen2, hntime⟩ := share_readable (wellSpelled_of_run hparse hbefore) hlink
              hstands.knows
            intro r hr
            rcases List.mem_append.mp hr with hr | hr
            · exact ih r hr
            · obtain rfl := List.mem_singleton.mp hr
              refine request_readable (by simp) ?_
              simp only [List.forall_mem_cons]
              exact ⟨huser, hid, hen2, hntime, isUtf8_of_unhex (unhex_hex _), by simp⟩

/-- The connection is opened by exactly the users whose name and password are
UTF-8. -/
theorem openingRequests_sent {user password : Text} (huser : ∀ c ∈ user, c.toNat < 256)
    (hpassword : ∀ c ∈ password, c.toNat < 256) :
    (∀ r ∈ openingRequests user password, ∃ line, sendLine r = .ok line) ↔
      IsUtf8 user ∧ IsUtf8 password := by
  constructor
  · intro h
    obtain ⟨line, hline⟩ := h (request 3 "mining.authorize" [.string user, .string password])
      (by simp [openingRequests])
    obtain ⟨text, htext, -⟩ := bind_eq_ok.mp hline
    have hbytes : (request 3 "mining.authorize" [.string user, .string password]).All Bytewise := by
      refine (request_all (fun _ => trivial) (fun _ => trivial) (fun _ => trivial) ?_ (by simp)).mpr ?_
      · rintro _ ⟨cs, rfl⟩
        exact chars_bytewise _
      · simp only [List.forall_mem_cons]
        exact ⟨huser, hpassword, by simp⟩
    have hspelled := (request_all (fun _ => trivial) (fun _ => trivial) (fun _ => trivial)
      (fun _ hs => hs) (by simp)).mp (spelled_of_dump hbytes htext)
    exact ⟨hspelled (.string user) (by simp), hspelled (.string password) (by simp)⟩
  · rintro ⟨huser, hpassword⟩ r hr
    obtain ⟨text, htext⟩ := writes_readable (openingRequests_readable huser hpassword r hr)
    refine ⟨text ++ ['\n'], ?_⟩
    rw [sendLine, htext.dump]
    rfl

/-- The requests `mine` opens an SV1 connection with can be made exactly for a name
and a password that are UTF-8. Then, in every run of the connection and whatever
pieces the socket takes, a pool that cuts what has arrived at the newlines and reads
the lines finds the first of the requests, the opening ones and the shares in the
order in which they were submitted, and nothing else; what has arrived of a line
that is not finished is no request yet. -/
theorem pool_reads_lines (hparse : ∀ line message, env.parse line = .ok message →
      message.All Spelled) {password : Text} (huser : ∀ c ∈ env.user, c.toNat < 256)
    (hpassword : ∀ c ∈ password, c.toNat < 256) (hrun : Run env (.sv1 [] {}) start m) :
    ((∀ r ∈ openingRequests env.user password, ∃ line, sendLine r = .ok line) ↔
      IsUtf8 env.user ∧ IsUtf8 password) ∧
    (IsUtf8 env.user ∧ IsUtf8 password → ∀ attempts, ∃ out n,
      sendAll attempts (openingRequests env.user password ++ m.submitRequests) = .ok (out, n) ∧
      (completed '\n' out).map readDocument =
        ((openingRequests env.user password ++ m.submitRequests).take n).map some ∧
      ∀ received later, out = received ++ later → (completed '\n' received).map readDocument <+:
        ((openingRequests env.user password ++ m.submitRequests).take n).map some) := by
  refine ⟨openingRequests_sent huser hpassword, ?_⟩
  rintro ⟨huser, hpassword⟩ attempts
  have hreadable : ∀ r ∈ openingRequests env.user password ++ m.submitRequests, r.All Readable := by
    intro r hr
    rcases List.mem_append.mp hr with hr | hr
    · exact openingRequests_readable huser hpassword r hr
    · exact submitRequests_readable hparse huser hrun r hr
  obtain ⟨out, n, hout, hread⟩ := sendAll_readable hreadable attempts
  refine ⟨out, n, hout, hread, ?_⟩
  rintro received later rfl
  rw [← hread, completed_append, List.map_append]
  exact List.prefix_append _ _

private theorem sample_spelled : ∀ line message, (sampleEnv []).parse line = .ok message →
    message.All Spelled := by
  have hzeros (n : Nat) : IsUtf8 (zeros n) := by
    apply isUtf8_ascii
    intro c hc
    rw [List.eq_of_mem_replicate hc]
    decide
  have hascii {s : Text} (hs : ∀ c ∈ s, c.toNat < 0x80) : Spelled (.string s) := isUtf8_ascii hs
  intro line message h
  simp only [sampleEnv, sampleParse] at h
  split at h
  · rename_i entry hentry
    obtain rfl := Except.ok.inj h
    have hmem := List.mem_of_find?_eq_some hentry
    rw [List.append_nil] at hmem
    simp only [sampleLines, List.mem_cons, List.not_mem_nil, or_false] at hmem
    rcases hmem with rfl | rfl | rfl | rfl <;>
      simp [subscribed, authorized, easy, notice, noticeOf, All, AllItems, AllMembers, Spelled, hzeros,
        isUtf8_ascii]
  · cases h

/-- The last line breaks off. -/
theorem pool_reads_lines_sample : ∃ m : Machine sampleConfig Unit,
    Run (sampleEnv []) (.sv1 [] {}) {} m ∧ m.submitRequests.length = 1 ∧ ∃ out n,
      sendAll [[.wrote 5, .again, .wrote 100], [.wrote 100], [.wrote 100], [.wrote 7, .failed]]
        (openingRequests "worker".toList "x".toList ++ m.submitRequests) = .ok (out, n) ∧
      (completed '\n' out).map readDocument =
        ((openingRequests "worker".toList "x".toList ++ m.submitRequests).take n).map some := by
  obtain ⟨m, state, job, hrun, hmines, -, -, -, -, -, -, -, share, htrace⟩ := sample_submitted []
  have hpassword : ∀ c ∈ "x".toList, c.toNat < 256 := by simp
  obtain ⟨-, hlines⟩ := pool_reads_lines sample_spelled (by simp [sampleEnv]) hpassword hrun
  obtain ⟨out, n, hout, hread, -⟩ := hlines ⟨isUtf8_ascii (by simp [sampleEnv]),
    isUtf8_ascii (by simp)⟩ [[.wrote 5, .again, .wrote 100], [.wrote 100], [.wrote 100],
      [.wrote 7, .failed]]
  have hshare : share = _ :=
    sent_sv1 hrun (share, Found.mk job 0 theRow) (by simp [Machine.sent, htrace])
  dsimp only at hshare
  subst hshare
  exact ⟨m, hrun, by simp [Machine.submitRequests, htrace, submitRequest], out, n, hout, hread⟩

end Supryolo.Miner
