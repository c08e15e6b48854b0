import Supryolo.Conversation
import Supryolo.Miner.Reservations
import Supryolo.Miner.Shares

namespace Supryolo.Miner

open Histories Sv2

variable {cfg : Config} {κ : Type} {env : Env κ} {m m' : Machine cfg κ} {start : View cfg.rows}
  {follows : κ → κ → Prop} {pool : Bytes → κ} {initial : κ} {first : Bytes} {t : Terms}
  {session : Session κ} {requests : List Request}

/-- The request that carries a share. -/
def Share.request? : Share → Option Request
  | .sv1 _ _ _ _ _ => none
  | .sv2 channel sequence job nonce ntime version =>
      some (.submitStandard channel sequence job nonce ntime version)

/-- What the pool has been sent. A read that has ended the connection may have
gone on for a few frames after the last one that returned. -/
structure Machine.Overheard (c : Cipher κ) (follows : κ → κ → Prop) (pool : Bytes → κ) (initial : κ)
    (first : Bytes) (t : Terms) (m : Machine cfg κ) (session : Session κ) (requests : List Request) :
    Prop where
  link : m.link = .sv2 session
  shares : m.sent.map (fun x => x.1.request?) = requests.map some
  spoken : session.Spoken c follows pool initial first t requests
  parting : m.parting = [] ∨ (∃ e, m.main = .ended e) ∧ ∃ last : Session κ,
    session.phase ≤ last.phase ∧ last.written = session.written ++ m.parting ∧
      last.Spoken c follows pool initial first t requests

/-- While the connection runs, no read has thrown. -/
theorem Machine.Overheard.running {c : Cipher κ}
    (h : m.Overheard c follows pool initial first t session requests)
    (hruns : ∀ e, m.main ≠ .ended e) : m.parting = [] :=
  h.parting.resolve_right fun hended => by
    obtain ⟨⟨e, he⟩, -⟩ := hended
    exact hruns e he

theorem Machine.Overheard.same {c : Cipher κ}
    (h : m.Overheard c follows pool initial first t session requests) (hlink : m'.link = m.link)
    (hsent : m'.sent = m.sent) (hparting : m'.parting = []) :
    m'.Overheard c follows pool initial first t session requests :=
  ⟨hlink.trans h.link, by rw [hsent]; exact h.shares, h.spoken, Or.inl hparting⟩

/-- A share that goes out over SV2 is submitted to the session under the next
id. -/
theorem submitOne_spoken {f : Found cfg.rows} {next : Machine cfg κ} (hlink : m.link = .sv2 session)
    (hsubmit : m.submitOne env f = .ok next) : next.parting = m.parting ∧
    ((next.link = m.link ∧ next.sent = m.sent) ∨ ∃ session',
      session.submit env.foreign f.job f.nonce m.nextId.toNat.toUInt32 = .ok session' ∧
        next.link = .sv2 session' ∧ next.sent = m.sent ++ [(m.shareOf env f, f)]) := by
  obtain ⟨checked, hcheck, hsubmit⟩ := Loops.bind_eq_ok.mp hsubmit
  cases checked with
  | none =>
      obtain rfl := Loops.pure_eq_ok.mp hsubmit
      exact ⟨rfl, Or.inl ⟨rfl, rfl⟩⟩
  | some n =>
      dsimp only at hsubmit
      unfold Machine.sendShare at hsubmit
      rw [show (m.addCandidates n).link = m.link from rfl, hlink] at hsubmit
      obtain ⟨-, hsubmit⟩ := Loops.guard_eq_ok.mp hsubmit
      obtain ⟨session', hsession, hsubmit⟩ := Loops.bind_eq_ok.mp hsubmit
      obtain rfl := Loops.pure_eq_ok.mp hsubmit
      refine ⟨rfl, Or.inr ⟨session', hsession, rfl, ?_⟩⟩
      simp [Machine.sent, Machine.record, Machine.addCandidates, Machine.shareOf, hlink]

theorem MainStep.overheard (hc : Duplex env.foreign.cipher follows)
    (hpool : Session.Answers env.foreign.cipher follows pool initial) (ht : t.Bytewise)
    (hstep : MainStep env m m')
    (h : m.Overheard env.foreign.cipher follows pool initial first t session requests) :
    ∃ session' requests',
      m'.Overheard env.foreign.cipher follows pool initial first t session' requests' := by
  have hquiet : m.parting = [] := h.running hstep.running
  cases hstep with
  | iterate expired early later =>
      unfold Machine.beginIteration
      split <;> exact ⟨session, requests, h.same rfl rfl hquiet⟩
  | poll chunks ending messages link hmain hread =>
      rw [h.link] at hread
      obtain ⟨bytes, -, hread⟩ := Loops.bind_eq_ok.mp hread
      obtain ⟨⟨out, session'⟩, hreceive, hread⟩ := Loops.bind_eq_ok.mp hread
      obtain ⟨-, rfl⟩ := Prod.mk.inj (Loops.pure_eq_ok.mp hread)
      exact ⟨session', requests, rfl, h.shares, h.spoken.receive hc hpool ht hreceive,
        Or.inl hquiet⟩
  | pollFailed chunks ending e hmain hread =>
      refine ⟨session, requests, h.link, h.shares, h.spoken, ?_⟩
      change m.link.parting env chunks ending = [] ∨ (∃ e', Main.ended (some e) = .ended e') ∧
        ∃ last : Session κ, session.phase ≤ last.phase ∧
          last.written = session.written ++ m.link.parting env chunks ending ∧ _
      rw [h.link, Link.parting]
      cases readBytes chunks ending with
      | error e => exact Or.inl rfl
      | ok bytes =>
          obtain ⟨hphase, more, hmore⟩ := @Session.interrupted_grows _ env.foreign session bytes
          refine Or.inr ⟨⟨_, rfl⟩, session.interrupted env.foreign bytes, hphase, ?_,
            h.spoken.interrupted hc hpool ht bytes⟩
          dsimp only
          rw [← hmore, List.drop_left]
  | handle next message rest hmain hhandle =>
      rcases handleMessage_ok hhandle with
        ⟨buffer, state, state', job, hsv1, -, rfl⟩ | ⟨session', hsv2, rfl⟩
      · rw [h.link] at hsv1
        cases hsv1
      · refine ⟨session, requests, h.same ?_ ?_ ?_⟩
        · exact (publish_sameBooks _ _ _).1.trans (hsv2.symm ▸ rfl)
        · exact (publish_sent _ _ _).trans (by simp [Machine.sent])
        · exact (publish_parting _ _ _).trans hquiet
  | submit next f rest hmain hsubmit =>
      obtain ⟨hparting, hspoken⟩ := submitOne_spoken h.link hsubmit
      rcases hspoken with ⟨hlink, hsent⟩ | ⟨session', hsession, hlink, hsent⟩
      · exact ⟨session, requests, h.same hlink hsent (hparting.trans hquiet)⟩
      · refine ⟨session', _, hlink, ?_, h.spoken.submit hc.toInOrder hsession,
          Or.inl (hparting.trans hquiet)⟩
        change next.sent.map _ = _
        rw [hsent, List.map_append, List.map_append, h.shares]
        simp [Machine.shareOf, h.link, Share.request?, Session.shareRequest]
  | submitFailed f rest e =>
      obtain ⟨n, hn⟩ := afterFailure_idle m f
      rw [hn]
      exact ⟨session, requests, h.same rfl rfl hquiet⟩
  | sendBroken f rest e =>
      obtain ⟨n, hn⟩ := afterFailure_idle m f
      rw [hn]
      exact ⟨session, requests, h.same rfl rfl hquiet⟩
  | _ => exact ⟨session, requests, h.same rfl rfl hquiet⟩

theorem overheard_of_run (hc : Duplex env.foreign.cipher follows)
    (hpool : Session.Answers env.foreign.cipher follows pool initial) (ht : t.Bytewise)
    (hrun : Run env (.sv2 (.start initial first t.host t.port t.user t.rate)) start m) :
    ∃ session requests,
      m.Overheard env.foreign.cipher follows pool initial first t session requests := by
  induction hrun with
  | refl => exact ⟨_, [], rfl, rfl, Session.spoken_start _ _ _ _ _ _, Or.inl rfl⟩
  | tail hbefore hstep ih =>
      obtain ⟨session, requests, h⟩ := ih
      cases hstep with
      | main hmain => exact hmain.overheard hc hpool ht h
      | worker i hworker =>
          refine ⟨session, requests, hworker.sameConnection.link.trans h.link, ?_, h.spoken, ?_⟩
          · rw [hworker.sent]
            exact h.shares
          · rw [hworker.parting, hworker.sameConnection.main]
            exact h.parting

/-- In every run of an SV2 connection, whatever it receives and however its
threads are interleaved: before the pool's answer only the first message is
written; after it a pool that is in step, with reads of its own, reads the
greeting and the shares that were sent, each once and in order, and nothing else.
Only what has not arrived yet is missing. When a read has thrown, what it sent
before only carries the greeting on. -/
theorem pool_reads_requests (hc : Duplex env.foreign.cipher follows)
    (hpool : Session.Answers env.foreign.cipher follows pool initial) (ht : t.Bytewise)
    (hrun : Run env (.sv2 (.start initial first t.host t.port t.user t.rate)) start m) :
    ∃ session requests, m.link = .sv2 session ∧
      m.sent.map (fun x => x.1.request?) = requests.map some ∧
      (session.phase = 0 → session.written = first ∧ requests = []) ∧
      (session.phase ≠ 0 → ∃ answer, Session.PoolReads env.foreign.cipher (pool answer) first
        session.written (t.greeting session.phase ++ requests)) ∧
      (m.parting ≠ [] → ∃ phase answer, session.phase ≤ phase ∧
        Session.PoolReads env.foreign.cipher (pool answer) first (session.written ++ m.parting)
          (t.greeting phase ++ requests)) := by
  obtain ⟨session, requests, hlink, hshares, hspoken, hparting⟩ := overheard_of_run hc hpool ht hrun
  refine ⟨session, requests, hlink, hshares, ?_, ?_, ?_⟩
  · intro hzero
    exact ⟨(hspoken.silent hzero).1, hspoken.closed (by omega)⟩
  · intro hopen
    obtain ⟨answer, hheard⟩ := hspoken.heard hopen
    exact ⟨answer, hheard.pieces⟩
  · intro hmore
    obtain ⟨-, last, hphase, hwritten, hlast⟩ := hparting.resolve_left hmore
    -- A session that has written more has been answered.
    have hopen : last.phase ≠ 0 := by
      intro hzero
      have hbefore := (hspoken.silent (by omega)).1
      rw [(hlast.silent hzero).1, hbefore] at hwritten
      exact hmore (List.self_eq_append_right.mp hwritten)
    obtain ⟨answer, hheard⟩ := hlast.heard hopen
    refine ⟨last.phase, answer, hphase, ?_⟩
    rw [← hwritten]
    exact hheard.pieces

def openingTerms : Terms := ⟨"pool".toList, 3333, "worker".toList, 0x3f800000⟩

theorem openingTerms_bytewise : openingTerms.Bytewise where
  host := by simp [openingTerms]
  user := by simp [openingTerms]

/-- The pool reads the setup, the opening of the channel and the first share. -/
theorem pool_reads_requests_sample :
    ∃ (m : Machine sampleConfig Unit) (session : Session Unit),
      Run (sampleEnv []) (.sv2 openingSession) {} m ∧ m.link = .sv2 session ∧ session.phase = 3 ∧
        ∃ outs last, history (Noise.receive paddingCipher) { ready := true, framing := ⟨(), none, 0⟩ }
            [session.written] = .ok (outs, last) ∧
          outs.flatten.mapM readRequest =
            .ok [openingTerms.setupRequest, openingTerms.openRequest,
              .submitStandard 5 10 7 0 0x60000000 0x20000000] := by
  obtain ⟨before, m, opened, session, bytes, job, f, events, hbefore, -, -, hshort, hhistory, hstep,
    hlink, hthree, hwritten, hlength, htrace⟩ := opening_submits
  have hrun : Run (sampleEnv []) (.sv2 openingSession) {} m := hbefore.tail hstep
  have hsmall : session.written.length ≤ 8192 := by
    rw [hwritten, List.length_append]
    omega
  have hsent : m.sent = [(.sv2 5 10 7 0 0x60000000 0x20000000, f)] := by
    rw [Machine.sent, htrace, hhistory, List.filterMap_append, List.filterMap_append,
      List.filterMap_map, List.append_assoc]
    -- The messages of the pool send nothing.
    exact congrArg (· ++ _) (List.filterMap_eq_nil_iff.mpr fun _ _ => rfl)
  obtain ⟨session', requests, hlink', hshares, -, hheard, -⟩ :=
    @pool_reads_requests _ _ (sampleEnv []) _ _ _ (fun _ => ()) _ _ openingTerms
      paddingCipher_duplex (fun _ _ _ => trivial) openingTerms_bytewise hrun
  obtain rfl := Link.sv2.inj (hlink.symm.trans hlink')
  obtain ⟨answer, hpieces⟩ := hheard (by rw [hthree]; decide)
  obtain ⟨outs, last, read, later, houts, hread, hgreeting, hnothing⟩ :=
    hpieces [session.written] [] (by simpa using hsmall) (by simp)
  refine ⟨m, session, hrun, hlink, hthree, outs, last, houts, ?_⟩
  obtain rfl : requests = [.submitStandard 5 10 7 0 0x60000000 0x20000000] := by
    rw [hsent] at hshares
    simpa [Share.request?] using hshares.symm
  rw [hnothing rfl, List.append_nil, hthree] at hgreeting
  rw [hread, ← hgreeting]
  rfl

end Supryolo.Miner
