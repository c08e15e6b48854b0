import Supryolo.Miner.Reservations
import Supryolo.Miner.Workers
import Supryolo.Requests
import Supryolo.Work

namespace Supryolo.Miner

open Words

variable {cfg : Config} {κ : Type} {env : Env κ} {m m' : Machine cfg κ} {start : View cfg.rows}

/-- The header the pool puts together from the fields of a submission: for SV1
from what it notified under the id, for SV2 from the present previous hash, the
root of the wire job and the extranonce of the channel. -/
def Machine.rebuild (m : Machine cfg κ) : Share → Option Bytes
  | .sv1 _ id en2 ntime nonce => do
      let kept ← m.poolView.jobs.lookup id
      let header ← (siaWork kept.prev kept.c1 kept.c2 kept.en1 en2 ntime).toOption
      let bytes ← (unhex nonce).toOption
      pure (header.toList.take 32 ++ bytes ++ header.toList.drop 40)
  | .sv2 _ _ job nonce ntime _ =>
      match m.link with
      | .sv1 _ _ => none
      | .sv2 session => do
          let stored ← session.jobs.lookup job
          let header ←
            (Sv2.standardWork session.previous stored.wire.root session.extra ntime).toOption
          pure (storeLe header 32 nonce.toUInt64).toList

/-- A scan of the job covered the nonce, on a worker of that row. -/
def Machine.Searched (m : Machine cfg κ) (j : Job) (row : Fin cfg.rows) (nonce : UInt64) : Prop :=
  ∃ s ∈ m.scans, s.job = j ∧ cfg.row s.worker = row ∧ nonce ∈ nonceRange s.start s.count.toNat

/-- The shares sent so far. -/
def Machine.sent (m : Machine cfg κ) : List (Share × Found cfg.rows) :=
  m.trace.filterMap fun
    | .submitted _ share f => some (share, f)
    | _ => none

/-- The fields of the share that a frame spells. -/
def Share.ofFrame (frame : Sv2.Frame) : Option Share :=
  match Sv2.readRequest frame with
  | .ok (.submitStandard channel sequence job nonce ntime version) =>
      some (.sv2 channel sequence job nonce ntime version)
  | _ => none

/-- What holds of a share that the step from `m` to `m'` sends. The pool has its
SV2 fields from the frame that the step adds to the bytes of the session. -/
structure Machine.Sends (env : Env κ) (m m' : Machine cfg κ) (share : Share)
    (f : Found cfg.rows) : Prop where
  valid : m.link.valid f.job = true
  searched : m.Searched f.job f.row f.nonce
  written : ∀ session, m.link = .sv2 session → ∃ frame bytes noise session',
    session.noise.encode env.foreign.cipher frame = .ok (bytes, noise) ∧
      m'.link = .sv2 session' ∧ session'.written = session.written ++ bytes ∧
      Share.ofFrame frame = some share
  header : m.link.generation ≤ 2 ^ 64 →
    m.rebuild share = some (storeLe f.job.work.header 32 f.nonce).toList
  target : ∃ hash, blake2b256 (storeLe f.job.work.header 32 f.nonce).toList = .ok hash ∧
    beNat hash.toList ≤ beNat f.job.work.target.toList

def Machine.queue (m : Machine cfg κ) : List (Found cfg.rows) :=
  match m.main with
  | .submitting queue => queue
  | _ => []

/-- The shares that have been found and not submitted yet. -/
def Machine.waiting (m : Machine cfg κ) : List (Found cfg.rows) := m.found ++ m.queue

private theorem waiting_of_found (hfound : m'.found = m.found) (hqueue : m'.queue ⊆ m.queue) :
    m'.waiting ⊆ m.waiting := by
  unfold Machine.waiting
  rw [hfound]
  exact List.append_subset.mpr ⟨List.subset_append_left _ _, fun f hf =>
    List.mem_append_right _ (hqueue hf)⟩

theorem publish_found (m : Machine cfg κ) (authorized fresh : Bool) :
    (m.publish authorized fresh).found = m.found := by
  unfold Machine.publish
  split <;> rfl

theorem submitOne_found {f : Found cfg.rows} {next : Machine cfg κ}
    (hsubmit : m.submitOne env f = .ok next) : next.found = m.found := by
  obtain ⟨checked, -, hsubmit⟩ := Loops.bind_eq_ok.mp hsubmit
  cases checked with
  | none => rw [← Loops.pure_eq_ok.mp hsubmit]
  | some n =>
      dsimp only at hsubmit
      unfold Machine.sendShare at hsubmit
      split at hsubmit
      · rw [← Loops.pure_eq_ok.mp hsubmit]
        rfl
      · obtain ⟨-, hsubmit⟩ := Loops.guard_eq_ok.mp hsubmit
        obtain ⟨session, -, hsubmit⟩ := Loops.bind_eq_ok.mp hsubmit
        rw [← Loops.pure_eq_ok.mp hsubmit]
        rfl

/-- The connection loop adds no share. -/
theorem MainStep.waiting (h : MainStep env m m') : m'.waiting ⊆ m.waiting := by
  have hnone {queue : List (Found cfg.rows)} : [] ⊆ queue := List.nil_subset _
  cases h with
  | iterate expired early later =>
      unfold Machine.beginIteration
      split <;> exact waiting_of_found rfl hnone
  | handle next message rest hmain hhandle =>
      refine waiting_of_found ?_ hnone
      rcases handleMessage_ok hhandle with
        ⟨buffer, state, state', job, -, -, rfl⟩ | ⟨session, -, rfl⟩
      · exact publish_found _ _ _
      · exact publish_found _ _ _
  | collect =>
      simp [Machine.waiting, Machine.queue]
  | submit next f rest hmain hsubmit =>
      have hfound := submitOne_found hsubmit
      refine waiting_of_found hfound ?_
      simp only [Machine.queue, hmain]
      exact List.subset_cons_self _ _
  | submitFailed f rest e hmain =>
      obtain ⟨n, hn⟩ := afterFailure_idle m f
      rw [hn]
      exact waiting_of_found rfl hnone
  | sendBroken f rest e hmain =>
      obtain ⟨n, hn⟩ := afterFailure_idle m f
      rw [hn]
      exact waiting_of_found rfl hnone
  | _ => exact waiting_of_found rfl hnone

private theorem scans_subset (hscans : m'.scans = m.scans) : m.scans ⊆ m'.scans := by
  rw [hscans]
  exact List.Subset.refl _

theorem Machine.Searched.mono {j : Job} {row : Fin cfg.rows} {nonce : UInt64}
    (h : m.Searched j row nonce) (hscans : m.scans ⊆ m'.scans) : m'.Searched j row nonce := by
  obtain ⟨s, hs, hsearched⟩ := h
  exact ⟨s, hscans hs, hsearched⟩

/-- What is known of a share that waits. -/
structure Machine.Stands (m : Machine cfg κ) (f : Found cfg.rows) : Prop where
  searched : m.Searched f.job f.row f.nonce
  knows : m.link.Knows m.poolView f.job
  speaks : m.link.Speaks f.job

/-- Every share that waits, or is still in the hands of a worker, comes from a
scan of its job. Scans of SV2 jobs stay within 32 bits. -/
structure Machine.Sourced (m : Machine cfg κ) : Prop where
  narrow : ∀ s ∈ m.scans, s.job.sv2 = true → s.start.toNat + s.count.toNat ≤ 2 ^ 32
  results : ∀ i j r, (m.workers i).phase = .scanned j r →
    ∀ n ∈ r.nonces, m.Searched j (cfg.row i) n
  waiting : ∀ f ∈ m.waiting, m.Stands f

theorem Machine.Stands.mono {f : Found cfg.rows} (h : m.Stands f)
    (hmoves : Moves m.poolView m'.poolView m.link m'.link) (hscans : m.scans ⊆ m'.scans) :
    m'.Stands f :=
  ⟨h.searched.mono hscans, hmoves.knows _ h.knows, hmoves.speaks _ h.speaks⟩

/-- The range of an SV2 scan is a partition. -/
theorem narrow_range {w : Worker} {index : Nat} {batch count : UInt32} {j j' : Job}
    {reserved start : UInt64} (h : w.range index batch j reserved = .ok (j', start, count))
    (hsv2 : j'.sv2 = true) : start.toNat + count.toNat ≤ 2 ^ 32 := by
  rcases range_ok h with ⟨-, p, hp, -, rfl, rfl⟩ | ⟨hsv1, rfl, -⟩
  · obtain ⟨-, -, -, -, -, hroom⟩ := Sv2.partition_ok hp
    rw [UInt32.toNat_toUInt64]
    exact hroom
  · rw [hsv1] at hsv2
    cases hsv2

/-- A scan that is added keeps what was known before it. -/
private theorem Machine.Sourced.narrow_snoc (h : m.Sourced) {s : ScanCall cfg.slots}
    (hscans : m'.scans = m.scans ++ [s])
    (hnarrow : s.job.sv2 = true → s.start.toNat + s.count.toNat ≤ 2 ^ 32) :
    ∀ s ∈ m'.scans, s.job.sv2 = true → s.start.toNat + s.count.toNat ≤ 2 ^ 32 := by
  rw [hscans]
  intro s hs
  rcases List.mem_append.mp hs with hs | hs
  · exact h.narrow s hs
  · rw [List.mem_singleton.mp hs]
    exact hnarrow

private theorem Machine.Sourced.worker (h : m.Sourced) (hcarries : m.Carries)
    (hmoves : Moves m.poolView m'.poolView m.link m'.link) {i : Fin cfg.slots}
    (hworker : WorkerStep i m m') : m'.Sourced := by
  have hothers {k : Fin cfg.slots} (hk : k ≠ i) := hworker.others hk
  have hqueue : m'.queue = m.queue := by
    unfold Machine.queue
    rw [hworker.sameConnection.main]
  -- The other workers keep their results, and the shares that wait still stand.
  have hkept (hscans : m.scans ⊆ m'.scans) (hfound : m'.found = m.found)
      (hnarrow : ∀ s ∈ m'.scans, s.job.sv2 = true → s.start.toNat + s.count.toNat ≤ 2 ^ 32)
      (hresults : ∀ j r, (m'.workers i).phase = .scanned j r →
        ∀ n ∈ r.nonces, m'.Searched j (cfg.row i) n) : m'.Sourced := by
    refine ⟨hnarrow, ?_, ?_⟩
    · intro k j r hphase n hn
      by_cases hk : k = i
      · rw [hk] at hphase ⊢
        exact hresults j r hphase n hn
      · rw [hothers hk] at hphase
        exact (h.results k j r hphase n hn).mono hscans
    · intro f hf
      rw [Machine.waiting, hfound, hqueue] at hf
      exact (h.waiting f hf).mono hmoves hscans
  have hsame (hscans : m'.scans = m.scans) :
      ∀ s ∈ m'.scans, s.job.sv2 = true → s.start.toNat + s.count.toNat ≤ 2 ^ 32 := by
    rw [hscans]
    exact h.narrow
  cases hworker.effect with
  | moved phase hphase hjob halted hfound hscans =>
      refine hkept (scans_subset hscans) hfound (hsame hscans) ?_
      intro j r hscanned
      rw [hphase] at hscanned
      rw [show phase = .scanned j r from hscanned] at hjob
      cases hjob
  | took j reserved hwork hphase halted hfound hscans =>
      refine hkept (scans_subset hscans) hfound (hsame hscans) ?_
      intro j r hscanned
      rw [hphase] at hscanned
      cases hscanned
  | refused j reserved e hphase hafter hfound hscans =>
      refine hkept (scans_subset hscans) hfound (hsame hscans) ?_
      intro j r hscanned
      rw [hafter] at hscanned
      cases hscanned
  | scanned j j' reserved start count r hphase hrange hscan hafter hfound hscans =>
      refine hkept (by rw [hscans]; exact List.subset_append_left _ _) hfound
        (h.narrow_snoc hscans (narrow_range hrange)) ?_
      intro made r' hscanned n hn
      rw [hafter] at hscanned
      obtain ⟨rfl, rfl⟩ := Phase.scanned.inj hscanned
      refine ⟨⟨i, j', start, count⟩, ?_, rfl, rfl, (hscan.mem_of_ok.2 n hn).1⟩
      rw [hscans]
      exact List.mem_append_right _ (List.mem_singleton_self _)
  | failed j j' reserved start count e hphase hrange hafter hfound hscans =>
      refine hkept (by rw [hscans]; exact List.subset_append_left _ _) hfound
        (h.narrow_snoc hscans (narrow_range hrange)) ?_
      intro j r hscanned
      rw [hafter] at hscanned
      cases hscanned
  | pushed j r hphase hafter hfound hscans =>
      refine ⟨hsame hscans, ?_, ?_⟩
      · intro k made r' hscanned n hn
        by_cases hk : k = i
        · rw [hk, hafter] at hscanned
          cases hscanned
        · rw [hothers hk] at hscanned
          exact (h.results k made r' hscanned n hn).mono (scans_subset hscans)
      · intro f hf
        have hstands : m.Stands f := by
          rw [Machine.waiting, hfound, hqueue, List.append_assoc, List.mem_append,
            List.mem_append] at hf
          rcases hf with hf | hf | hf
          · exact h.waiting f (List.mem_append_left _ hf)
          · obtain ⟨n, hn, rfl⟩ := List.mem_map.mp hf
            have hjob : (m.workers i).phase.job? = some j := by
              rw [hphase]
              rfl
            exact ⟨h.results i j r hphase n hn, hcarries.knows i j hjob, hcarries.speaks i j hjob⟩
          · exact h.waiting f (List.mem_append_right _ hf)
        exact hstands.mono hmoves (scans_subset hscans)

theorem Machine.Sourced.step (h : m.Sourced) (hcarries : m.Carries)
    (hsound : m.link.Sound m.poolView) (hstep : Step env m m') : m'.Sourced := by
  have hmoves := hstep.moves hsound
  cases hstep with
  | worker i hworker => exact h.worker hcarries hmoves hworker
  | main hmain =>
      have hscans := hmain.scans
      refine ⟨by rw [hscans]; exact h.narrow, ?_, ?_⟩
      · rw [hmain.sameWorkers.workers]
        exact fun i j r hphase n hn => (h.results i j r hphase n hn).mono (scans_subset hscans)
      · intro f hf
        exact (h.waiting f (hmain.waiting hf)).mono hmoves (scans_subset hscans)

theorem sourced_of_run {link : Link κ} (hlink : link.Fresh) (hrun : Run env link start m) :
    m.Sourced := by
  induction hrun with
  | refl =>
      refine ⟨fun s hs => absurd hs List.not_mem_nil, ?_, fun f hf => absurd hf List.not_mem_nil⟩
      intro i j r hphase
      cases hphase
  | tail hbefore hstep ih =>
      exact ih.step (carries_of_run hlink hbefore) (sound_of_run hlink hbefore) hstep

/-- Ids only grow, so the next one is above every sequence number that was
sent. -/
theorem lastSent_of_run {link : Link κ} (hfresh : link.Fresh) (hrun : Run env link start m)
    {session : Sv2.Session κ} (hsession : m.link = .sv2 session) :
    (session.lastSent.toNat : Int) < m.nextId := by
  induction hrun generalizing session with
  | refl =>
      cases hfresh with
      | sv1 => cases hsession
      | sv2 state first host port user rate =>
          obtain rfl := Link.sv2.inj hsession
          exact (by decide : ((0 : Nat) : Int) < 10)
  | @tail m m' hbefore hstep ih =>
      cases hstep.effect with
      | idle n hsame hledger hnextId =>
          rw [hnextId]
          exact ih (hsame.symm.trans hsession)
      | received chunks ending messages hread hledger hnextId =>
          rw [hsession] at hread
          obtain ⟨before, bytes, hbefore, hreceive⟩ := read_sv2 hread
          rw [hnextId, Sv2.Session.receive_lastSent hreceive]
          exact ih hbefore
      | handledSv1 message buffer state state' job hlink hlink' =>
          rw [hlink'] at hsession
          cases hsession
      | handledSv2 message before hlink hlink' hledger hnextId =>
          obtain rfl := Link.sv2.inj (hlink'.symm.trans hsession)
          rw [hnextId]
          exact ih hlink
      | sentSv1 f n buffer state hcheck hlink hlink' =>
          rw [hlink'] at hsession
          cases hsession
      | sentSv2 f n before session' hcheck hlink hlink' hlimit hsubmit hledger hnextId =>
          obtain rfl := Link.sv2.inj (hlink'.symm.trans hsession)
          obtain ⟨-, noise, written, rfl⟩ := Sv2.Session.submit_ok hsubmit
          have hle : m.nextId.toNat.toUInt32.toNat ≤ m.nextId.toNat := by
            rw [Nat.toUInt32, UInt32.toNat_ofNat']
            exact Nat.mod_le _ _
          have hpositive := (synced_of_run hfresh hbefore).positive
          rw [hnextId]
          change ((m.nextId.toNat.toUInt32.toNat : Nat) : Int) < m.nextId + 1
          omega

theorem stands_of_submitting {link : Link κ} (hlink : link.Fresh) (hrun : Run env link start m)
    {f : Found cfg.rows} {rest : List (Found cfg.rows)}
    (hmain : m.main = .submitting (f :: rest)) : m.Stands f := by
  refine (sourced_of_run hlink hrun).waiting f (List.mem_append_right _ ?_)
  simp [Machine.queue, hmain]

theorem Machine.Sourced.nonce_le (h : m.Sourced) {f : Found cfg.rows} (hstands : m.Stands f)
    {session : Sv2.Session κ} (hsession : m.link = .sv2 session) : f.nonce.toNat ≤ 2 ^ 32 - 1 := by
  obtain ⟨s, hs, hjob, -, hnonce⟩ := hstands.searched
  have hsv2 : s.job.sv2 = true := by
    have hspeaks := hstands.speaks
    rw [hsession] at hspeaks
    rw [hjob]
    exact hspeaks
  have hnarrow := h.narrow s hs hsv2
  rw [mem_nonceRange (hnarrow.trans (by decide))] at hnonce
  omega

/-- Whatever the submit loop passes on, the session accepts. -/
theorem submittable_of_checked {link : Link κ} (hlink : link.Fresh) (hrun : Run env link start m)
    {f : Found cfg.rows} {rest : List (Found cfg.rows)} (hmain : m.main = .submitting (f :: rest))
    {n : Nat} (hcheck : m.checkShare f = .ok (some n)) {session : Sv2.Session κ}
    (hsession : m.link = .sv2 session) (hlimit : m.nextId ≤ 0xffffffff) :
    session.submittable f.job f.nonce m.nextId.toNat.toUInt32 = true := by
  obtain ⟨-, hvalid, hroom, -⟩ := checkShare_ok hcheck
  rw [hsession] at hvalid
  have hnonce : f.nonce ≤ 0xffffffff := UInt64.le_iff_toNat_le.mpr
    ((sourced_of_run hlink hrun).nonce_le (stands_of_submitting hlink hrun hmain) hsession)
  have hsequence : session.lastSent < m.nextId.toNat.toUInt32 := by
    have hbelow := lastSent_of_run hlink hrun hsession
    rw [UInt32.lt_iff_toNat_lt, Nat.toUInt32, UInt32.toNat_ofNat']
    omega
  have hpending : session.pending.length < 4096 := by
    have hagree := ((synced_of_run hlink hrun).agree session hsession).length_eq
    rw [queued_of_main hmain (by simp)] at hagree
    simp only [Sv2.sharesIn, List.filterMap_nil, List.map_nil, List.nil_append,
      Sv2.Session.outstanding, Ledger.outstanding, List.length_map] at hagree
    omega
  have hvalid' : session.valid f.job = true := hvalid
  simp [Sv2.Session.submittable, hvalid', hnonce, hsequence, hpending]

theorem WorkerStep.sent {i : Fin cfg.slots} (h : WorkerStep i m m') : m'.sent = m.sent := by
  cases h with
  | take =>
      unfold Machine.takeWork
      split
      · rfl
      · split
        · unfold Machine.syncCursor
          dsimp only
          split <;> split <;> simp [Machine.sent, Machine.setPhase, Machine.setWorker]
        · rfl
  | scan j j' reserved start count outcome =>
      cases outcome <;> simp [Machine.sent, Machine.scanRange, Machine.setWorker]
  | push j r =>
      unfold Machine.pushFound
      split <;> rfl
  | _ => rfl

/-- The fields under which a share goes out. -/
def Machine.shareOf (env : Env κ) (m : Machine cfg κ) (f : Found cfg.rows) : Share :=
  match m.link with
  | .sv1 _ _ => .sv1 env.user f.job.id f.job.en2 f.job.ntime (hex (leBytes 8 f.nonce))
  | .sv2 session =>
      .sv2 session.channel m.nextId.toNat.toUInt32 f.job.wireJob f.nonce.toUInt32 f.job.time32
        f.job.version

theorem submitOne_sent {f : Found cfg.rows} {next : Machine cfg κ}
    (hsubmit : m.submitOne env f = .ok next) :
    next.sent = m.sent ∨
      (∃ n, m.checkShare f = .ok (some n)) ∧ next.sent = m.sent ++ [(m.shareOf env f, f)] := by
  obtain ⟨checked, hcheck, hsubmit⟩ := Loops.bind_eq_ok.mp hsubmit
  cases checked with
  | none =>
      rw [← Loops.pure_eq_ok.mp hsubmit]
      exact Or.inl rfl
  | some n =>
      refine Or.inr ⟨⟨n, hcheck⟩, ?_⟩
      dsimp only at hsubmit
      unfold Machine.sendShare at hsubmit
      unfold Machine.shareOf
      cases hlink : m.link with
      | sv1 buffer state =>
          rw [show (m.addCandidates n).link = m.link from rfl, hlink] at hsubmit
          rw [← Loops.pure_eq_ok.mp hsubmit]
          simp [Machine.sent, Machine.record, Machine.addCandidates]
      | sv2 session =>
          rw [show (m.addCandidates n).link = m.link from rfl, hlink] at hsubmit
          obtain ⟨-, hsubmit⟩ := Loops.guard_eq_ok.mp hsubmit
          obtain ⟨session', -, hsubmit⟩ := Loops.bind_eq_ok.mp hsubmit
          rw [← Loops.pure_eq_ok.mp hsubmit]
          simp [Machine.sent, Machine.record, Machine.addCandidates]

theorem publish_sent (m : Machine cfg κ) (authorized fresh : Bool) :
    (m.publish authorized fresh).sent = m.sent := by
  unfold Machine.publish
  split <;> rfl

/-- Shares are sent by the submit loop, after its checks. -/
theorem MainStep.sent (h : MainStep env m m') :
    m'.sent = m.sent ∨
      ∃ f rest n, m.main = .submitting (f :: rest) ∧ m.checkShare f = .ok (some n) ∧
        m'.sent = m.sent ++ [(m.shareOf env f, f)] ∧
        ∃ next, m.submitOne env f = .ok next ∧ m'.link = next.link := by
  cases h with
  | iterate expired early later =>
      unfold Machine.beginIteration
      split <;> exact Or.inl rfl
  | handle next message rest hmain hhandle =>
      left
      rcases handleMessage_ok hhandle with
        ⟨buffer, state, state', job, -, -, rfl⟩ | ⟨session, -, rfl⟩
      · exact (publish_sent _ _ _).trans (by simp [Machine.sent])
      · exact (publish_sent _ _ _).trans (by simp [Machine.sent])
  | submit next f rest hmain hsubmit =>
      rcases submitOne_sent hsubmit with hsent | ⟨⟨n, hcheck⟩, hsent⟩
      · exact Or.inl hsent
      · exact Or.inr ⟨f, rest, n, hmain, hcheck, hsent, next, hsubmit, rfl⟩
  | submitFailed f rest e =>
      obtain ⟨n, hn⟩ := afterFailure_idle m f
      rw [hn]
      exact Or.inl rfl
  | sendBroken f rest e =>
      obtain ⟨n, hn⟩ := afterFailure_idle m f
      rw [hn]
      exact Or.inl rfl
  | _ => exact Or.inl rfl

/-- What an SV2 session writes for a share is the frame with its fields. -/
private theorem submitOne_written {f : Found cfg.rows} {next : Machine cfg κ} {n : Nat}
    {session : Sv2.Session κ} (hsubmit : m.submitOne env f = .ok next)
    (hcheck : m.checkShare f = .ok (some n)) (hlink : m.link = .sv2 session) :
    ∃ frame bytes noise session', session.noise.encode env.foreign.cipher frame = .ok (bytes, noise) ∧
      next.link = .sv2 session' ∧ session'.written = session.written ++ bytes ∧
      Share.ofFrame frame = some (m.shareOf env f) := by
  rw [Machine.submitOne, hcheck] at hsubmit
  simp only [Loops.ok_bind, Machine.sendShare, show (m.addCandidates n).link = m.link from rfl,
    hlink] at hsubmit
  obtain ⟨-, hsubmit⟩ := Loops.guard_eq_ok.mp hsubmit
  obtain ⟨session', hsession, hsubmit⟩ := Loops.bind_eq_ok.mp hsubmit
  obtain rfl := Loops.pure_eq_ok.mp hsubmit
  unfold Sv2.Session.submit at hsession
  split at hsession
  · obtain ⟨⟨bytes, noise⟩, hencode, hsession⟩ := Loops.bind_eq_ok.mp hsession
    obtain rfl := Loops.pure_eq_ok.mp hsession
    refine ⟨_, bytes, noise, _, hencode, rfl, rfl, ?_⟩
    have hread (c s j n t v : UInt32) : Sv2.readRequest (Sv2.submitStandard c s j n t v) =
        .ok (.submitStandard c s j n t v) := by
      rw [Sv2.submitStandard_frame]
      exact Sv2.readRequest_frame trivial
    rw [Share.ofFrame, hread, Machine.shareOf, hlink]
    rfl
  · cases hsession

/-- The pool rebuilds the scanned header from an SV1 submission. -/
private theorem rebuild_sv1 {f : Found cfg.rows} {buffer : Text} {state : StratumState}
    (hlink : m.link = .sv1 buffer state) (hknows : m.link.Knows m.poolView f.job)
    (hstands : m.link.Stands f.job) :
    m.rebuild (m.shareOf env f) = some (storeLe f.job.work.header 32 f.nonce).toList := by
  rw [hlink] at hknows hstands
  obtain ⟨kept, hkept, hheader⟩ := StratumState.Knows.header hknows hstands
  rw [storeLe_toList _ _ _ (by decide)]
  simp only [Machine.shareOf, hlink, Machine.rebuild, hkept, Option.bind_eq_bind, Option.bind_some,
    hheader, unhex_hex]
  rfl

/-- The pool rebuilds the scanned header from an SV2 submission. -/
private theorem rebuild_sv2 {f : Found cfg.rows} {session : Sv2.Session κ}
    (hlink : m.link = .sv2 session) (hknows : m.link.Knows m.poolView f.job)
    (hstands : m.link.Stands f.job) (hnonce : f.nonce.toNat ≤ 2 ^ 32 - 1) :
    m.rebuild (m.shareOf env f) = some (storeLe f.job.work.header 32 f.nonce).toList := by
  rw [hlink] at hknows hstands
  obtain ⟨stored, hstored, hheader⟩ := Sv2.Session.Knows.header hknows hstands
  have hwide : f.nonce.toUInt32.toUInt64 = f.nonce := by
    apply UInt64.toNat_inj.mp
    rw [UInt32.toNat_toUInt64, UInt64.toNat_toUInt32]
    omega
  simp only [Machine.shareOf, hlink, Machine.rebuild, hstored, Option.bind_eq_bind, Option.bind_some,
    hheader, hwide]
  rfl

/-- In every run, whatever the pool sends and however the threads are
interleaved: a share that is sent is valid, was found by a scan of its job, and
the scanned header meets its target. As long as at most `2 ^ 64` jobs have been
activated, that header is the one the pool rebuilds from the submitted fields;
for SV2 these are the fields of the frame the session writes. The session's own
guard passes every share the submit loop hands to it. -/
theorem shares_sound {link : Link κ} (hlink : link.Fresh) (hrun : Run env link start m) :
    (∀ m' share f, Step env m m' → m'.sent = m.sent ++ [(share, f)] → m.Sends env m' share f) ∧
      ∀ f rest n session, m.main = .submitting (f :: rest) → m.checkShare f = .ok (some n) →
        m.link = .sv2 session → m.nextId ≤ 0xffffffff →
        session.submittable f.job f.nonce m.nextId.toNat.toUInt32 = true := by
  refine ⟨?_, fun f rest n session hmain hcheck hsession hlimit =>
    submittable_of_checked hlink hrun hmain hcheck hsession hlimit⟩
  intro m' share f hstep hsent
  have hnot (hsame : m'.sent = m.sent) : False := by
    rw [hsame] at hsent
    exact absurd (congrArg List.length hsent) (by simp)
  cases hstep with
  | worker i hworker => exact absurd hworker.sent hnot
  | main hmain =>
      rcases hmain.sent with hsame | ⟨f', rest, n, hsubmitting, hcheck, hshare, next, hsubmit, hnext⟩
      · exact absurd hsame hnot
      · obtain ⟨rfl, rfl⟩ : share = m.shareOf env f' ∧ f = f' := by
          simpa [hshare, eq_comm] using hsent
        obtain ⟨-, hvalid, -, hash, hhash, hmeets⟩ := checkShare_ok hcheck
        have hwaits := stands_of_submitting hlink hrun hsubmitting
        refine ⟨hvalid, hwaits.searched, ?_, ?_, hash, hhash, (meets_iff _ _).mp hmeets⟩
        · rw [hnext]
          exact fun session hsession => submitOne_written hsubmit hcheck hsession
        · intro hfew
          have hstands := Link.stands_of_valid (sound_of_run hlink hrun) hfew hwaits.knows.older hvalid
          cases hprotocol : m.link with
          | sv1 buffer state => exact rebuild_sv1 hprotocol hwaits.knows hstands
          | sv2 session =>
              exact rebuild_sv2 hprotocol hwaits.knows hstands
                ((sourced_of_run hlink hrun).nonce_le hwaits hprotocol)

/-- The first share of a connection of either protocol. -/
theorem shares_sound_first :
    (∃ (m m' : Machine sampleConfig Unit) (share : Share) (f : Found sampleConfig.rows),
      Run (sampleEnv []) (.sv1 [] {}) {} m ∧ Step (sampleEnv []) m m' ∧
        m'.sent = m.sent ++ [(share, f)] ∧ m.Sends (sampleEnv []) m' share f) ∧
    ∃ (m m' : Machine sampleConfig Unit) (f : Found sampleConfig.rows),
      Run (sampleEnv []) (.sv2 openingSession) {} m ∧ Step (sampleEnv []) m m' ∧
        m'.sent = m.sent ++ [(.sv2 5 10 7 0 0x60000000 0x20000000, f)] ∧
        m.Sends (sampleEnv []) m' (.sv2 5 10 7 0 0x60000000 0x20000000) f := by
  refine ⟨?_, ?_⟩
  rotate_left
  · obtain ⟨m, m', -, -, -, -, f, -, hrun, -, -, -, -, hstep, -, -, -, -, htrace⟩ := opening_submits
    have hsent : m'.sent = m.sent ++ [(.sv2 5 10 7 0 0x60000000 0x20000000, f)] := by
      rw [Machine.sent, htrace, List.filterMap_append]
      rfl
    exact ⟨m, m', f, hrun, hstep, hsent,
      (shares_sound (.sv2 () [] _ _ _ _) hrun).1 _ _ _ hstep hsent⟩
  obtain ⟨m₁, state, job, hrun, hmines, hgeneration, hfound, hledger, -, hworker, -⟩ :=
    sample_mines []
  obtain ⟨m₂, hround, hmines₂, hfound₂, -, hledger₂, -⟩ := hmines.round []
    (by rw [hworker]) (by rw [hworker, hmines.generation, hgeneration]; decide)
    (by rw [hfound]; decide)
  obtain ⟨n, hcheck⟩ := hmines₂.checkShare (by rw [hledger₂, hledger]; decide) 0
  let f : Found sampleConfig.rows := Found.mk job 0 theRow
  let share : Share := .sv1 "worker".toList job.id job.en2 job.ntime (hex (leBytes 8 0))
  let ready : Machine sampleConfig Unit := { m₂ with main := .submitting [f], found := [] }
  let next : Machine sampleConfig Unit :=
    { (m₂.addCandidates n).record share f with main := .submitting [], found := [] }
  have hcollect : Relation.ReflTransGen (Step (sampleEnv [])) m₂ ready := by
    have hone : m₂.found = [f] := by
      rw [hfound₂, hfound]
      rfl
    have hready : ready = { m₂ with main := .submitting m₂.found, found := [] } := by
      rw [hone]
    rw [hready]
    exact iteration_collect hmines₂.main hmines₂.failure hmines₂.link
  have hrun' : Run (sampleEnv []) (.sv1 [] {}) {} ready := (hrun.trans hround).trans hcollect
  have hstep : Step (sampleEnv []) ready next := .main (submit_share hmines₂.link hcheck)
  have hsent : next.sent = ready.sent ++ [(share, f)] := by
    simp [next, ready, Machine.sent, Machine.record, Machine.addCandidates]
  exact ⟨ready, next, share, f, hrun', hstep, hsent, (shares_sound .sv1 hrun').1 _ _ _ hstep hsent⟩

/-! ### After the counters have come round -/

/-- A block other than the one of the first notice. -/
def otherPrev : Text := List.replicate 64 'f'

def otherLines : List (Text × Json) := [(noticeLineOf otherPrev, noticeOf otherPrev)]

theorem read_other (state : StratumState) :
    Link.read (sampleEnv otherLines) (.sv1 [] state) [lineBytes (noticeLineOf otherPrev)] .again =
      .ok ([noticeOf otherPrev], .sv1 [] state) := by
  have hparse : (sampleEnv otherLines).parse (noticeLineOf otherPrev) = .ok (noticeOf otherPrev) := by
    have hfind : (sampleLines ++ otherLines).find? (fun entry => entry.1 = noticeLineOf otherPrev) =
        some (noticeLineOf otherPrev, noticeOf otherPrev) := by
      have hsubscribed : decide (subscribedLine = noticeLineOf otherPrev) = false := by decide +kernel
      have hauthorized : decide (authorizedLine = noticeLineOf otherPrev) = false := by decide +kernel
      have heasy : decide (easyLine = noticeLineOf otherPrev) = false := by decide +kernel
      have hnotice : decide (noticeLine = noticeLineOf otherPrev) = false := by decide +kernel
      simp only [sampleLines, otherLines, List.cons_append, List.nil_append, List.find?_cons,
        hsubscribed, hauthorized, heasy, hnotice, decide_true]
    simp only [sampleEnv, sampleParse, hfind]
  exact read_line (by decide) (by decide +kernel) (by decide +kernel) (by decide +kernel) hparse

private theorem send_noticeOf (v : PoolView) (prev : Text) :
    (v.send (noticeOf prev)).jobs =
      v.jobs.insert "j".toList ⟨prev, zeros 78, [], v.en1⟩ := rfl

/-- The header of a job of the first notice starts with the hash of its block. -/
private theorem sample_header {m : Machine sampleConfig Unit} {state : StratumState} {job : Job}
    (hrun : Run (sampleEnv otherLines) (.sv1 [] {}) {} m) (hmines : Mines m state job)
    (htrace : m.trace = [.received subscribed, .received authorized, .received easy,
      .received notice]) : unhex (zeros 64) = .ok (job.work.header.toList.take 32) := by
  have hknows : m.link.Knows m.poolView job := (published_of_run .sv1 hrun).knows job hmines.work
  rw [hmines.link] at hknows
  have hstands : state.Stands job :=
    ⟨hmines.epoch, by rw [hmines.known, hmines.generation]⟩
  obtain ⟨kept, hkept, hheader⟩ := StratumState.Knows.header hknows hstands
  have hjobs : m.poolView.jobs.lookup job.id = some ⟨zeros 64, zeros 78, [], zeros 8⟩ := by
    rw [hmines.id, Machine.poolView, Machine.received, htrace]
    rfl
  obtain rfl := Option.some.inj (hjobs.symm.trans hkept)
  exact siaWork_prev hheader

/-- A share held back while the pool notifies `2 ^ 64` clean jobs under its id is
valid again, and sent. From its fields the pool rebuilds a header on top of the
last block, and not the one that was scanned. -/
theorem stale_share_sent :
    ∃ (m m' : Machine sampleConfig Unit) (share : Share) (f : Found sampleConfig.rows),
      Run (sampleEnv otherLines) (.sv1 [] {}) {} m ∧ Step (sampleEnv otherLines) m m' ∧
        m'.sent = m.sent ++ [(share, f)] ∧ m.link.generation = 2 ^ 64 + 1 ∧
        m.rebuild share ≠ some (storeLe f.job.work.header 32 f.nonce).toList := by
  obtain ⟨m₁, state₁, job, hrun₁, hmines₁, hfirst, hfound₁, hledger₁, -, hworker₁, htrace₁⟩ :=
    sample_mines otherLines
  have hheader := sample_header hrun₁ hmines₁ htrace₁
  -- The worker scans the first job and is slow to hand over its result.
  have hscan := hmines₁.scan otherLines (by rw [hworker₁])
    (by rw [hworker₁, hmines₁.generation, hfirst]; decide)
  let r : Scan := { hashes := 1, nonces := [0] }
  let m₂ : Machine sampleConfig Unit :=
    { m₁ with trace := m₁.trace ++ [Event.scanned theSlot job 0 1] }.setWorker theSlot
      { phase := .scanned job r, generation := job.generation, cursor := 1 }
  have hmines₂ : Mines m₂ state₁ job :=
    ⟨⟨hmines₁.main, hmines₁.link, hmines₁.failure, hmines₁.draining, hmines₁.stop, hmines₁.en1,
      hmines₁.en2Size, hmines₁.nextTarget, hmines₁.haveTarget, hmines₁.authorized⟩, hmines₁.work,
      hmines₁.generation, hmines₁.epoch, hmines₁.en2, hmines₁.known, hmines₁.id, hmines₁.sv1,
      hmines₁.target, hmines₁.activated⟩
  obtain ⟨m₃, state₃, job₃, hmany, hmines₃, hgeneration₃, hepoch₃, hpast₃, -, hworkers₃, -,
    hledger₃⟩ := hmines₂.notify_many otherLines
      (by rw [show m₂.found = [] from hfound₁]; simp) (2 ^ 64 - 1)
  obtain ⟨m₄, state₄, job₄, hlast, hmines₄, hgeneration₄, hepoch₄, hfound₄, hworkers₄, htrace₄,
    hledger₄, -⟩ := hmines₃.toConnected.notified otherLines hpast₃ (read_other state₃)
      (show unhex otherPrev = .ok (List.replicate 32 255) from rfl) rfl
  have hphase : (m₄.workers theSlot).phase = .scanned job r := by
    rw [hworkers₄, hworkers₃]
    exact congrArg Worker.phase (workers_setWorker _ _ _)
  let f : Found sampleConfig.rows := Found.mk job 0 theRow
  let m₅ : Machine sampleConfig Unit := { m₄ with found := [f] }.setPhase theSlot .checking
  have hpush : WorkerStep theSlot m₄ m₅ := by
    have hstep := WorkerStep.push m₄ job r hphase
    have hpushed : m₄.pushFound theSlot job r = m₅ := by
      rw [Machine.pushFound, hfound₄]
      rfl
    rwa [hpushed] at hstep
  let ready : Machine sampleConfig Unit := { m₅ with main := .submitting [f], found := [] }
  have hcollect : Relation.ReflTransGen (Step (sampleEnv otherLines)) m₅ ready :=
    iteration_collect (m := m₅) hmines₄.main hmines₄.failure hmines₄.link
  have hrun₃ := (hrun₁.trans hscan).trans hmany
  have hrun : Run (sampleEnv otherLines) (.sv1 [] {}) {} ready :=
    ((hrun₃.trans hlast).tail (.worker theSlot hpush)).trans hcollect
  -- Both counters have come round, so the old job is taken for the last one.
  have hvalid : m₅.link.valid job = true := by
    have hlookup : state₄.validIds.lookup job.id = some state₄.generation := by
      rw [hmines₁.id, ← hmines₄.id]
      exact hmines₄.known
    have hepoch : sameCount job.epoch state₄.epoch = true :=
      sameCount_iff.mpr (by rw [hmines₁.epoch]; omega)
    have hnumber : sameCount state₄.generation job.generation = true :=
      sameCount_iff.mpr (by rw [hmines₁.generation]; omega)
    rw [show m₅.link = .sv1 [] state₄ from hmines₄.link]
    simp only [Link.valid, StratumState.valid, hmines₄.authorized, hepoch, hlookup, hnumber,
      Option.any_some, Bool.and_self]
  have hcheck : ∃ n, m₅.checkShare f = .ok (some n) := by
    have hledger : m₅.ledger = {} := hledger₄.trans (hledger₃.trans hledger₁)
    simp only [Machine.checkShare, show m₅.draining = false from hmines₄.draining, hledger,
      show f.job = job from rfl, hvalid, blake2b256_header, Loops.ok_bind, hmines₁.target, meets_easy]
    exact ⟨_, rfl⟩
  obtain ⟨n, hcheck⟩ := hcheck
  let share : Share := .sv1 "worker".toList job.id job.en2 job.ntime (hex (leBytes 8 0))
  let next : Machine sampleConfig Unit :=
    { (m₅.addCandidates n).record share f with main := .submitting [], found := [] }
  have hstep : Step (sampleEnv otherLines) ready next :=
    .main (submit_share (m := m₅) hmines₄.link hcheck)
  refine ⟨ready, next, share, f, hrun, hstep, ?_, ?_, ?_⟩
  · simp [next, ready, Machine.sent, Machine.record, Machine.addCandidates]
  · rw [show ready.link = .sv1 [] state₄ from hmines₄.link]
    change state₄.generation = _
    omega
  · -- What the pool has under the id is the last notice.
    have hen1 : m₃.poolView.en1 = zeros 8 := by
      have hsound := sound_of_run .sv1 hrun₃
      rw [hmines₃.link] at hsound
      exact (StratumState.Sound.en1 hsound).trans hmines₃.en1
    have hview : ready.poolView = m₃.poolView.send (noticeOf otherPrev) := by
      have hreceived : ready.received = m₃.received ++ [noticeOf otherPrev] := by
        rw [Machine.received, show ready.trace = m₄.trace from rfl, htrace₄]
        simp [Machine.received]
      rw [Machine.poolView, hreceived, List.foldl_append]
      rfl
    have hkept : ready.poolView.jobs.lookup job.id = some ⟨otherPrev, zeros 78, [], zeros 8⟩ := by
      rw [hview, send_noticeOf, hmines₁.id, AList.lookup_insert, hen1]
    intro hrebuild
    simp only [share, Machine.rebuild, hkept, unhex_hex, Option.bind_eq_bind, Option.bind_some] at hrebuild
    obtain ⟨header, hother, hsame⟩ := Option.bind_eq_some_iff.mp hrebuild
    have hwork : siaWork otherPrev (zeros 78) [] (zeros 8) job.en2 job.ntime = .ok header := by
      cases hbuilt : siaWork otherPrev (zeros 78) [] (zeros 8) job.en2 job.ntime with
      | error e =>
          rw [hbuilt] at hother
          cases hother
      | ok built =>
          rw [hbuilt] at hother
          rw [Option.some.inj hother]
    have hprev := siaWork_prev hwork
    have htake : header.toList.take 32 = job.work.header.toList.take 32 := by
      have hbytes := congrArg (List.take 32) (Option.some.inj hsame)
      rw [storeLe_toList _ _ _ (by decide)] at hbytes
      simpa [List.take_append] using hbytes
    rw [htake, ← hheader] at hprev
    exact absurd hprev (by decide)

end Supryolo.Miner
