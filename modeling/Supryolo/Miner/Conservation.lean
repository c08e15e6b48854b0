import Supryolo.Miner.Deliveries
import Supryolo.Miner.Responses

namespace Supryolo.Miner

open scoped BigOperators

variable {cfg : Config} {κ : Type} {env : Env κ} {m m' : Machine cfg κ} {start : View cfg.rows}

/-- The shares that went out, with their ids. -/
def Machine.submitted (m : Machine cfg κ) : List (Int × Found cfg.rows) :=
  m.trace.filterMap fun
    | .submitted id _ f => some (id, f)
    | _ => none

theorem entries_shares (m : Machine cfg κ) :
    m.entries.filterMap Entry.share? = m.submitted.map fun s => (s.1, s.2.row) := by
  rw [Machine.entries, Machine.submitted, List.filterMap_filterMap, List.map_filterMap]
  refine List.filterMap_congr fun event _ => ?_
  cases event <;> rfl

theorem submitted_found (m : Machine cfg κ) : m.submitted.map Prod.snd = m.sent.map Prod.snd := by
  rw [Machine.sent, Machine.submitted, List.map_filterMap, List.map_filterMap]
  refine List.filterMap_congr fun event _ => ?_
  cases event <;> rfl

/-- The books hold exactly the shares that went out. -/
theorem submissions_of_run {link : Link κ} (hrun : Run env link start m) :
    m.ledger.submissions = m.entries.filterMap Entry.share? := by
  induction hrun with
  | refl => rfl
  | tail _ hstep ih =>
      cases hstep.bookStep with
      | idle n hentries hledger =>
          rw [hentries, hledger]
          exact ih
      | handled message _ hentries hledger =>
          rw [hledger, Ledger.account_submissions, ih, hentries, List.filterMap_append]
          exact (List.append_nil _).symm
      | sent row n hentries hledger =>
          rw [hledger, hentries, List.filterMap_append, ← ih]
          rfl

/-- What the accounting promises about a state, when the counters stood at
`start` when the connection was opened. -/
structure Conserved (start : View cfg.rows) (m : Machine cfg κ) : Prop where
  /-- A submitted share is outstanding or counted. -/
  shares : m.ledger.submissions.length + start.total.sum =
    m.ledger.pending.entries.length + m.ledger.view.total.sum
  /-- A submission is entered for the row of a share that went out, and each of
  these is a hit of a scan made by a worker of that row. -/
  attributed : m.ledger.submissions = m.submitted.map fun s => (s.1, s.2.row)
  found : ((m.submitted.map Prod.snd : List (Found cfg.rows)) : Multiset (Found cfg.rows)) ≤
    (m.owed : Multiset (Found cfg.rows))
  /-- Ids are used once, and a share is counted at most once, so never as two
  outcomes; what is counted was submitted, by the same row. -/
  submitted_once : (m.ledger.submissions.map Prod.fst).Nodup
  counted_once : (m.ledger.verdicts.map Prod.fst).Nodup
  counted_submitted : ∀ v ∈ m.ledger.verdicts, (v.1, v.2.1) ∈ m.ledger.submissions
  pending_submitted : ∀ id row, m.ledger.pending.lookup id = some row →
    (id, row) ∈ m.ledger.submissions ∧ id ∉ m.ledger.verdicts.map Prod.fst
  /-- The counters are what the verdicts of this connection add to `start`. -/
  totals : ∀ o, m.ledger.view.total.get o =
    start.total.get o + m.ledger.verdicts.countP (·.2.2 = o)
  devices : ∀ row o, (m.ledger.view.device row).get o =
    (start.device row).get o + m.ledger.verdicts.countP fun v => v.2.1 = row ∧ v.2.2 = o
  total_sum : ∀ o, m.ledger.view.total.get o = ∑ row, (m.ledger.view.device row).get o
  /-- A message about a share that was never submitted, or has been counted,
  counts nothing. -/
  unknown : ∀ message id, message.integerMember? "id".toList = some id →
    id ∉ m.ledger.submissions.map Prod.fst ∨ id ∈ m.ledger.verdicts.map Prod.fst →
    m.ledger.account message = m.ledger
  /-- Both records of an SV2 connection hold the same shares. -/
  session_keys : ∀ session, m.link = .sv2 session →
    (∀ id, id ∈ m.ledger.pending ↔ ∃ n ∈ session.pending, (n.toNat : Int) = id) ∧
      session.pending.Nodup ∧ session.pending.length ≤ 4096 ∧
      m.ledger.pending.entries.length ≤ 4096

theorem countP_sum (verdicts : List (Int × Fin cfg.rows × Outcome)) :
    verdicts.countP (·.2.2 = .accepted) + verdicts.countP (·.2.2 = .rejected) +
      verdicts.countP (·.2.2 = .stale) = verdicts.length := by
  induction verdicts with
  | nil => rfl
  | cons v rest ih =>
      obtain ⟨id, row, o⟩ := v
      cases o <;> simp <;> omega

/-- After every iteration of the connection loop, whatever the pool sent and
however the threads were interleaved: a submitted share is outstanding or counted
once, for the row whose scan found it, the totals are the sums over the rows, and
for SV2 the session has the same shares outstanding. -/
theorem accounting_conserved {link : Link κ} (hopens : Opens cfg env start) (hlink : link.Fresh)
    (hrun : Run env link start m) (hhead : m.main = .head) : Conserved start m := by
  have hbalanced := balanced_of_run hrun
  have hsynced := synced_of_run hlink hrun
  have hids := (hbalanced.conserved.map Prod.fst).nodup_iff.mp hbalanced.distinct
  rw [List.map_append, List.nodup_append] at hids
  obtain ⟨hpending, hcounted, hdisjoint⟩ := hids
  have hcounted_ids : m.ledger.counted.map Prod.fst = m.ledger.verdicts.map Prod.fst := by
    simp [Ledger.counted, Function.comp_def]
  rw [hcounted_ids] at hcounted hdisjoint
  have hnot_counted {id : Int} (hid : id ∈ m.ledger.pending) :
      id ∉ m.ledger.verdicts.map Prod.fst :=
    fun hverdict => hdisjoint id (Ledger.mem_keys_iff.mp hid) id hverdict rfl
  have hsubmitted {entry : Int × Fin cfg.rows} (hentry : entry ∈ m.ledger.outstanding) :
      entry ∈ m.ledger.submissions :=
    hbalanced.conserved.mem_iff.mpr (List.mem_append_left _ hentry)
  constructor
  case shares =>
    have hlength := hbalanced.conserved.length_eq
    have hsum := countP_sum m.ledger.verdicts
    have haccepted := hbalanced.total .accepted
    have hrejected := hbalanced.total .rejected
    have hstale := hbalanced.total .stale
    simp only [List.length_append, Ledger.outstanding, Ledger.counted, List.length_map] at hlength
    simp only [Tally.get] at haccepted hrejected hstale
    simp only [Tally.sum]
    omega
  case attributed => rw [submissions_of_run hrun, entries_shares]
  case found =>
    rw [submitted_found]
    exact (sent_le_shares m).trans (shares_le_owed hrun)
  case submitted_once => exact hbalanced.distinct
  case counted_once => exact hcounted
  case counted_submitted =>
    intro v hv
    refine hbalanced.conserved.mem_iff.mpr (List.mem_append_right _ ?_)
    exact List.mem_map_of_mem hv
  case pending_submitted =>
    intro id row hlookup
    refine ⟨hsubmitted ?_, hnot_counted (AList.lookup_isSome.mp (by rw [hlookup]; rfl))⟩
    exact List.mem_map.mpr ⟨⟨id, row⟩, AList.mem_lookup_iff.mp hlookup, rfl⟩
  case totals => exact hbalanced.total
  case devices => exact hbalanced.device
  case total_sum => exact consistent_of_run (consistent_of_opens hopens) hrun
  case unknown =>
    intro message id hid hunknown
    refine Ledger.account_of_notMem ?_
    intro id' hid' hmem
    obtain rfl := Option.some.inj (hid.symm.trans hid')
    rcases hunknown with hunknown | hdone
    · obtain ⟨entry, hentry, rfl⟩ := List.mem_map.mp (Ledger.mem_keys_iff.mp hmem)
      exact hunknown (List.mem_map_of_mem (hsubmitted hentry))
    · exact hnot_counted hmem hdone
  case session_keys =>
    intro session hsession
    have hagree := hsynced.agree session hsession
    rw [queued_of_main hhead (by simp)] at hagree
    have hlength := hagree.length_eq
    have hlimit := hsynced.limit
    simp only [Sv2.sharesIn, List.filterMap_nil, List.map_nil, List.nil_append,
      Sv2.Session.outstanding, Ledger.outstanding, List.length_map] at hagree hlength hlimit
    refine ⟨?_, ?_, by omega, hlimit⟩
    · intro id
      rw [Ledger.mem_keys_iff, Ledger.outstanding, hagree.mem_iff, List.mem_map]
    · exact List.Nodup.of_map _ (hagree.nodup_iff.mp hpending)

def refuseLine : Text := "\x7b\"id\":11,\"result\":false\x7d".toList

/-- The pool rejects the share with id 11. -/
def refuse : Json := .object [("id".toList, .integer 11), ("result".toList, .boolean false)]

def verdictLines : List (Text × Json) := [(acceptLine, accept), (refuseLine, refuse)]

/-- The worker waits with an empty queue for the next job. -/
structure Rests (m : Machine sampleConfig Unit) (state : StratumState) (job : Job) : Prop
    extends Mines m state job where
  found : m.found = []
  phase : (m.workers theSlot).phase = .checking
  adopted : (m.workers theSlot).generation = job.generation

/-- The next job brings the next share. -/
private theorem Rests.share {m : Machine sampleConfig Unit} {state : StratumState} {job : Job}
    (h : Rests m state job) (hroom : m.ledger.pending.entries.length < 4096) :
    ∃ (m' : Machine sampleConfig Unit) (state' : StratumState) (job' : Job) (n : Nat),
      Relation.ReflTransGen (Step (sampleEnv verdictLines)) m m' ∧ Rests m' state' job' ∧
      m'.ledger = (m.ledger.addCandidates n).submit m.nextId theRow ∧ m'.nextId = m.nextId + 1 := by
  obtain ⟨m₁, state₁, job₁, hnotify, hmines, hgeneration, -, hfound, hworkers, -, hledger, hnext⟩ :=
    h.toConnected.notify verdictLines (by rw [h.found]; simp)
  have hnew : sameCount job₁.generation (m₁.workers theSlot).generation = false := by
    rw [hworkers, h.adopted, hmines.generation, h.generation, hgeneration]
    exact sameCount_eq_false (by omega)
  obtain ⟨m₂, n, share, hsend, hmines₂, hfound₂, hledger₂, hnext₂, -, hphase, hadopted⟩ :=
    hmines.send verdictLines (by rw [hworkers]; exact h.phase) hnew hfound
      (by rw [hledger]; exact hroom)
  rw [hledger, hnext] at hledger₂
  rw [hnext] at hnext₂
  exact ⟨m₂, state₁, job₁, n, hnotify.trans hsend, ⟨hmines₂, hfound₂, hphase, hadopted⟩, hledger₂, hnext₂⟩

private theorem Rests.hear {m : Machine sampleConfig Unit} {state : StratumState} {job : Job}
    (h : Rests m state job) {line : Text} {message : Json}
    (hread : Link.read (sampleEnv verdictLines) (.sv1 [] state) [lineBytes line] .again =
      .ok ([message], .sv1 [] state))
    (hreceive : state.receive message = .ok (none, state)) :
    ∃ m' : Machine sampleConfig Unit, Relation.ReflTransGen (Step (sampleEnv verdictLines)) m m' ∧
      Rests m' state job ∧ m'.ledger = m.ledger.account message ∧ m'.nextId = m.nextId := by
  obtain ⟨m', hsteps, hmines, hfound, hworkers, -, hledger, hnext⟩ :=
    h.toMines.hear verdictLines h.found hread hreceive
  exact ⟨m', hsteps, ⟨hmines, hfound, by rw [hworkers]; exact h.phase,
    by rw [hworkers]; exact h.adopted⟩, hledger, hnext⟩

/-- The first of three shares is accepted, the second rejected, the third is
outstanding. -/
theorem accounting_conserved_share :
    ∃ m : Machine sampleConfig Unit, Run (sampleEnv verdictLines) (.sv1 [] {}) {} m ∧
      m.ledger.submissions = [(10, theRow), (11, theRow), (12, theRow)] ∧
      m.ledger.verdicts = [(10, theRow, .accepted), (11, theRow, .rejected)] ∧
      m.ledger.pending.entries.length = 1 ∧ Conserved {} m := by
  obtain ⟨m₀, state₀, job₀, hrun₀, hmines₀, hgeneration₀, hfound₀, hledger₀, hnext₀, hworker₀, -⟩ :=
    sample_mines verdictLines
  obtain ⟨m₁, n₁, share₁, hrun₁, hmines₁, hfound₁, hledger₁, hnext₁, -, hphase₁, hadopted₁⟩ :=
    hmines₀.send verdictLines (by rw [hworker₀])
      (by rw [hworker₀, hmines₀.generation, hgeneration₀]; decide) hfound₀ (by rw [hledger₀]; decide)
  have hrests₁ : Rests m₁ state₀ job₀ := ⟨hmines₁, hfound₁, hphase₁, hadopted₁⟩
  rw [hledger₀, hnext₀] at hledger₁
  rw [hnext₀] at hnext₁
  have haccept (state : StratumState) : Link.read (sampleEnv verdictLines) (.sv1 [] state)
      [lineBytes acceptLine] .again = .ok ([accept], .sv1 [] state) :=
    read_line (by decide) (by decide) (by decide) (by decide) rfl
  have hrefuse (state : StratumState) : Link.read (sampleEnv verdictLines) (.sv1 [] state)
      [lineBytes refuseLine] .again = .ok ([refuse], .sv1 [] state) :=
    read_line (by decide) (by decide) (by decide) (by decide) rfl
  obtain ⟨m₂, hrun₂, hrests₂, hledger₂, hnext₂⟩ := hrests₁.hear (haccept state₀) rfl
  obtain ⟨m₃, state₃, job₃, n₃, hrun₃, hrests₃, hledger₃, hnext₃⟩ :=
    hrests₂.share (by rw [hledger₂, hledger₁]; exact (by decide : 0 < 4096))
  obtain ⟨m₄, hrun₄, hrests₄, hledger₄, hnext₄⟩ := hrests₃.hear (hrefuse state₃) rfl
  rw [hnext₂, hnext₁, hledger₂, hledger₁] at hledger₃
  rw [hnext₂, hnext₁] at hnext₃
  obtain ⟨m₅, state₅, job₅, n₅, hrun₅, hrests₅, hledger₅, -⟩ :=
    hrests₄.share (by rw [hledger₄, hledger₃]; exact (by decide : 0 < 4096))
  rw [hnext₄, hnext₃, hledger₄, hledger₃] at hledger₅
  have hrun : Run (sampleEnv verdictLines) (.sv1 [] {}) {} m₅ :=
    ((((hrun₀.trans hrun₁).trans hrun₂).trans hrun₃).trans hrun₄).trans hrun₅
  refine ⟨m₅, hrun, ?_, ?_, ?_, accounting_conserved .first .sv1 hrun hrests₅.main⟩ <;>
    rw [hledger₅] <;> rfl

end Supryolo.Miner
