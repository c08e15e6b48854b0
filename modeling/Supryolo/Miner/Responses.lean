import Supryolo.Miner.Workers

/-!
Which messages settle a share. The session tells requests and notifications of
the pool from responses by their method, the accounting looks only at the id. A
request that happens to carry the id of an outstanding share is therefore
counted as its verdict. As long as the pool sends none, every share is settled
by the first response with its id.
-/

namespace Supryolo.Miner

variable {cfg : Config} {κ : Type} {env : Env κ} {m m' : Machine cfg κ} {start : View cfg.rows}

/-- Requests and notifications of the pool carry a method. -/
def isRequest (message : Json) : Bool := message.contains "method".toList

def answers (id : Int) (message : Json) : Bool :=
  !isRequest message && message.integerMember? "id".toList == some id

inductive Entry (rows : Nat)
  | message (message : Json)
  | share (id : Int) (row : Fin rows)

/-- The messages handled and the shares sent, in order. -/
def Machine.entries (m : Machine cfg κ) : List (Entry cfg.rows) :=
  m.trace.filterMap fun
    | .received message => some (.message message)
    | .submitted id _ f => some (.share id f.row)
    | _ => none

/-- The first response about a share. -/
def firstAnswer {rows : Nat} (id : Int) (entries : List (Entry rows)) : Option Json :=
  entries.findSome? fun
    | .message message => if answers id message then some message else none
    | .share _ _ => none

/-- How a share stands that was sent before `later`. -/
structure Machine.SettledBy (m : Machine cfg κ) (id : Int) (row : Fin cfg.rows)
    (later : List (Entry cfg.rows)) : Prop where
  outstanding : firstAnswer id later = none →
    m.ledger.pending.lookup id = some row ∧ ∀ v ∈ m.ledger.verdicts, v.1 ≠ id
  settled : ∀ message, firstAnswer id later = some message →
    id ∉ m.ledger.pending ∧ (id, row, outcomeOf message) ∈ m.ledger.verdicts ∧
      (∀ v ∈ m.ledger.verdicts, v.1 = id → v = (id, row, outcomeOf message)) ∧
      (outcomeOf message = .accepted ↔ (message.value "result".toList).isTrue = true)

/-- Every share is settled by the first response with its id, and the counters
are what these verdicts add to `start`. -/
structure Machine.OnlyResponsesSettle (start : View cfg.rows) (m : Machine cfg κ) : Prop where
  shares : ∀ before id row later, m.entries = before ++ Entry.share id row :: later →
    m.SettledBy id row later
  verdicts : ∀ v ∈ m.ledger.verdicts, ∃ before later,
    m.entries = before ++ Entry.share v.1 v.2.1 :: later
  totals : ∀ o, m.ledger.view.total.get o =
    start.total.get o + m.ledger.verdicts.countP (·.2.2 = o)
  devices : ∀ row o, (m.ledger.view.device row).get o =
    (start.device row).get o + m.ledger.verdicts.countP fun v => v.2.1 = row ∧ v.2.2 = o

inductive BookStep (m m' : Machine cfg κ) : Prop
  | idle (n : Nat) (hentries : m'.entries = m.entries)
      (hledger : m'.ledger = m.ledger.addCandidates n) (hnextId : m'.nextId = m.nextId)
  | handled (message : Json) (hreceived : m'.received = m.received ++ [message])
      (hentries : m'.entries = m.entries ++ [.message message])
      (hledger : m'.ledger = m.ledger.account message) (hnextId : m'.nextId = m.nextId)
  | sent (row : Fin cfg.rows) (n : Nat)
      (hentries : m'.entries = m.entries ++ [.share m.nextId row])
      (hledger : m'.ledger = (m.ledger.addCandidates n).submit m.nextId row)
      (hnextId : m'.nextId = m.nextId + 1)

theorem WorkerStep.entries {i : Fin cfg.slots} (h : WorkerStep i m m') : m'.entries = m.entries := by
  cases h with
  | take =>
      unfold Machine.takeWork
      split
      · rfl
      · split
        · unfold Machine.syncCursor
          dsimp only
          split <;> split <;> simp [Machine.entries, Machine.setPhase, Machine.setWorker]
        · rfl
  | scan j j' reserved start count outcome =>
      cases outcome <;> simp [Machine.entries, Machine.scanRange, Machine.setWorker]
  | push j r =>
      unfold Machine.pushFound
      split <;> rfl
  | _ => rfl

private theorem handle_bookStep {message : Json} {rest : List Json} {next : Machine cfg κ}
    (hhandle : m.handleMessage message = .ok next) :
    BookStep m { next with main := .handling rest } := by
  have hentries (made : Machine cfg κ) (htrace : made.trace = m.trace ++ [.received message]) :
      made.received = m.received ++ [message] ∧
        made.entries = m.entries ++ [.message message] := by
    simp [Machine.received, Machine.entries, htrace]
  rcases handleMessage_ok hhandle with
    ⟨buffer, state, state', job, -, -, rfl⟩ | ⟨session, -, rfl⟩
  · obtain ⟨-, hledger, hnextId, htrace, -⟩ := publish_sameBooks _ state'.authorized job.isSome
    exact .handled message (hentries _ htrace).1 (hentries _ htrace).2 hledger hnextId
  · obtain ⟨-, hledger, hnextId, htrace, -⟩ :=
      publish_sameBooks _ session.current.isSome session.current.isSome
    exact .handled message (hentries _ htrace).1 (hentries _ htrace).2 hledger hnextId

private theorem submit_bookStep {f : Found cfg.rows} {rest : List (Found cfg.rows)}
    {next : Machine cfg κ} (hsubmit : m.submitOne env f = .ok next) :
    BookStep m { next with main := .submitting rest } := by
  obtain ⟨checked, -, hsubmit⟩ := Loops.bind_eq_ok.mp hsubmit
  cases checked with
  | none =>
      obtain rfl := Loops.pure_eq_ok.mp hsubmit
      exact .idle 0 rfl rfl rfl
  | some n =>
      dsimp only at hsubmit
      unfold Machine.sendShare at hsubmit
      split at hsubmit
      · obtain rfl := Loops.pure_eq_ok.mp hsubmit
        refine .sent f.row n ?_ rfl rfl
        simp [Machine.entries, Machine.record, Machine.addCandidates]
      · obtain ⟨-, hsubmit⟩ := Loops.guard_eq_ok.mp hsubmit
        obtain ⟨session, -, hsubmit⟩ := Loops.bind_eq_ok.mp hsubmit
        obtain rfl := Loops.pure_eq_ok.mp hsubmit
        refine .sent f.row n ?_ rfl rfl
        simp [Machine.entries, Machine.record, Machine.addCandidates]

theorem Step.bookStep (h : Step env m m') : BookStep m m' := by
  cases h with
  | worker i hworker =>
      have hsame := hworker.sameConnection
      exact .idle 0 hworker.entries hsame.ledger hsame.nextId
  | main hmain =>
      cases hmain with
      | iterate expired early later =>
          unfold Machine.beginIteration
          split <;> exact .idle 0 rfl rfl rfl
      | handle next message rest hmain hhandle => exact handle_bookStep hhandle
      | submit next f rest hmain hsubmit => exact submit_bookStep hsubmit
      | submitFailed f rest e =>
          obtain ⟨n, hn⟩ := afterFailure_idle m f
          rw [hn]
          exact .idle n rfl rfl rfl
      | sendBroken f rest e =>
          obtain ⟨n, hn⟩ := afterFailure_idle m f
          rw [hn]
          exact .idle n rfl rfl rfl
      | _ => exact .idle 0 rfl rfl rfl

/-- The message does not carry the id of an outstanding share. -/
def Machine.Unrelated (m : Machine cfg κ) (message : Json) : Prop :=
  ∀ id, message.integerMember? "id".toList = some id → id ∉ m.ledger.pending

/-- A step that handles no request with the id of an outstanding share. -/
structure CleanStep (env : Env κ) (m m' : Machine cfg κ) : Prop where
  step : Step env m m'
  requests : ∀ message, m'.received = m.received ++ [message] → isRequest message = true →
    m.Unrelated message

def CleanRun (env : Env κ) (link : Link κ) (start : View cfg.rows) : Machine cfg κ → Prop :=
  Relation.ReflTransGen (CleanStep env) (Machine.initial cfg link start)

theorem CleanRun.run {link : Link κ} (h : CleanRun env link start m) : Run env link start m := by
  induction h with
  | refl => exact .refl
  | tail _ hstep ih => exact ih.tail hstep.step

theorem outcomeOf_accepted (message : Json) :
    outcomeOf message = .accepted ↔ (message.value "result".toList).isTrue = true := by
  cases hresult : (message.value "result".toList).isTrue with
  | true => simp only [outcomeOf, hresult, if_true]
  | false =>
      simp only [outcomeOf, hresult, Bool.false_eq_true, if_false, iff_false]
      split <;> simp

/-- A list that grows at its end keeps what stood before. -/
private theorem snoc_eq_split {α : Type} {xs before later : List α} {x last : α}
    (h : xs ++ [last] = before ++ x :: later) :
    (xs = before ∧ last = x ∧ later = []) ∨
      ∃ later', later = later' ++ [last] ∧ xs = before ++ x :: later' := by
  rcases List.eq_nil_or_concat later with rfl | ⟨later', y, rfl⟩
  · obtain ⟨rfl, hlast⟩ := List.append_inj' h rfl
    exact Or.inl ⟨rfl, (List.cons.inj hlast).1, rfl⟩
  · rw [List.concat_eq_append] at h ⊢
    rw [← List.cons_append, ← List.append_assoc] at h
    obtain ⟨rfl, hlast⟩ := List.append_inj' h rfl
    obtain rfl := (List.cons.inj hlast).1
    exact Or.inr ⟨later', rfl, rfl⟩

theorem firstAnswer_snoc_message {rows : Nat} (id : Int) (entries : List (Entry rows))
    (message : Json) :
    firstAnswer id (entries ++ [.message message]) =
      (firstAnswer id entries).or (if answers id message then some message else none) := by
  simp [firstAnswer, List.findSome?_append]

theorem firstAnswer_snoc_share {rows : Nat} (id : Int) (entries : List (Entry rows)) (other : Int)
    (row : Fin rows) : firstAnswer id (entries ++ [.share other row]) = firstAnswer id entries := by
  simp [firstAnswer, List.findSome?_append]

theorem Ledger.account_cases {rows : Nat} (l : Ledger rows) (message : Json) :
    l.account message = l ∨ ∃ id row, message.integerMember? "id".toList = some id ∧
      l.pending.lookup id = some row ∧ l.account message = l.settle id row (outcomeOf message) := by
  cases hid : message.integerMember? "id".toList with
  | none => exact Or.inl (by simp only [Ledger.account, hid])
  | some id =>
      cases hlookup : l.pending.lookup id with
      | none => exact Or.inl (by simp only [Ledger.account, hid, hlookup])
      | some row =>
          exact Or.inr ⟨id, row, rfl, hlookup, by simp only [Ledger.account, hid, hlookup]⟩

/-- A message changes the books exactly when its id is outstanding. -/
theorem Ledger.account_unchanged_iff {rows : Nat} {l : Ledger rows} {message : Json} :
    (l.account message).pending = l.pending ∧ (l.account message).view = l.view ↔
      ∀ id, message.integerMember? "id".toList = some id → id ∉ l.pending := by
  constructor
  · rintro ⟨hpending, -⟩ id hid hmem
    obtain ⟨row, hlookup⟩ := Option.isSome_iff_exists.mp (AList.lookup_isSome.mpr hmem)
    simp only [Ledger.account, hid, hlookup, Ledger.settle] at hpending
    have herased : id ∉ l.pending.erase id := by simp [AList.mem_erase]
    rw [hpending] at herased
    exact herased hmem
  · intro hunknown
    rw [Ledger.account_of_notMem hunknown]
    exact ⟨rfl, rfl⟩

/-- A share stands as before when the books say the same of its id. -/
private theorem Machine.SettledBy.same {id : Int} {row : Fin cfg.rows}
    {later later' : List (Entry cfg.rows)} (h : m.SettledBy id row later)
    (hanswer : firstAnswer id later' = firstAnswer id later)
    (hpending : m'.ledger.pending.lookup id = m.ledger.pending.lookup id)
    (hverdicts : ∀ v, v.1 = id → (v ∈ m'.ledger.verdicts ↔ v ∈ m.ledger.verdicts)) :
    m'.SettledBy id row later' := by
  refine ⟨?_, ?_⟩
  · intro hnone
    obtain ⟨hlookup, hfree⟩ := h.outstanding (hanswer.symm.trans hnone)
    exact ⟨hpending.trans hlookup, fun v hv hid => hfree v ((hverdicts v hid).mp hv) hid⟩
  · intro answer hsome
    obtain ⟨hgone, hmem, honly, haccepted⟩ := h.settled answer (hanswer.symm.trans hsome)
    refine ⟨?_, (hverdicts _ rfl).mpr hmem, fun v hv hid => honly v ((hverdicts v hid).mp hv) hid,
      haccepted⟩
    rw [← AList.lookup_eq_none] at hgone ⊢
    exact hpending.trans hgone

/-- A message settles the share it answers for, if it is the first to do so. -/
private theorem Machine.SettledBy.handled {id : Int} {row : Fin cfg.rows}
    {later : List (Entry cfg.rows)} (h : m.SettledBy id row later) {message : Json}
    (hledger : m'.ledger = m.ledger.account message)
    (hclean : isRequest message = true → m.ledger.account message = m.ledger) :
    m'.SettledBy id row (later ++ [.message message]) := by
  have hsnoc := firstAnswer_snoc_message id later message
  have hunchanged (hsame : m.ledger.account message = m.ledger)
      (hanswer : firstAnswer id (later ++ [.message message]) = firstAnswer id later) :
      m'.SettledBy id row (later ++ [.message message]) := by
    rw [hsame] at hledger
    exact h.same hanswer (by rw [hledger]) fun v _ => by rw [hledger]
  cases hanswers : answers id message with
  | true =>
      have hid : message.integerMember? "id".toList = some id := by
        simp only [answers, Bool.and_eq_true, beq_iff_eq] at hanswers
        exact hanswers.2
      cases hfirst : firstAnswer id later with
      | none =>
          obtain ⟨hlookup, hfree⟩ := h.outstanding hfirst
          have hsettle : m'.ledger = m.ledger.settle id row (outcomeOf message) := by
            rw [hledger]
            simp only [Ledger.account, hid, hlookup]
          rw [hfirst, hanswers, if_pos rfl, Option.none_or] at hsnoc
          refine ⟨fun hnone => (by rw [hsnoc] at hnone; cases hnone), ?_⟩
          intro answer hanswer
          obtain rfl := Option.some.inj (hsnoc.symm.trans hanswer)
          rw [hsettle]
          refine ⟨by simp [Ledger.settle, AList.mem_erase], by simp [Ledger.settle], ?_,
            outcomeOf_accepted message⟩
          intro v hv hsame
          rcases List.mem_append.mp hv with hold | hnew
          · exact absurd hsame (hfree v hold)
          · exact List.mem_singleton.mp hnew
      | some first =>
          obtain ⟨hgone, -⟩ := h.settled first hfirst
          refine hunchanged (Ledger.account_of_notMem ?_) (by rw [hsnoc, hfirst, Option.some_or])
          intro other hother
          rwa [← Option.some.inj (hid.symm.trans hother)]
  | false =>
      rw [hanswers, if_neg Bool.false_ne_true, Option.or_none] at hsnoc
      cases hrequest : isRequest message with
      | true => exact hunchanged (hclean hrequest) hsnoc
      | false =>
          rcases m.ledger.account_cases message with hsame | ⟨other, row', hid, -, hsettle⟩
          · exact hunchanged hsame hsnoc
          · have hne : id ≠ other := by
              rintro rfl
              simp only [answers, hrequest, hid, Bool.not_false, beq_self_eq_true,
                Bool.and_true, Bool.true_eq_false] at hanswers
            rw [hsettle] at hledger
            refine h.same hsnoc ?_ ?_
            · rw [hledger]
              exact AList.lookup_erase_ne hne
            · intro v hv
              have hnot : v ≠ (other, row', outcomeOf message) := by
                rintro rfl
                exact hne hv.symm
              simp [hledger, Ledger.settle, hnot]

def Entry.share? {rows : Nat} : Entry rows → Option (Int × Fin rows)
  | .message _ => none
  | .share id row => some (id, row)

/-- The books follow the entries. -/
structure Machine.Booked (m : Machine cfg κ) : Prop where
  submissions : m.ledger.submissions = m.entries.filterMap Entry.share?
  shares : ∀ before id row later, m.entries = before ++ Entry.share id row :: later →
    m.SettledBy id row later

theorem Ledger.account_submissions {rows : Nat} (l : Ledger rows) (message : Json) :
    (l.account message).submissions = l.submissions := by
  rcases l.account_cases message with hsame | ⟨id, row, -, -, hsettle⟩
  · rw [hsame]
  · rw [hsettle]
    rfl

theorem Machine.Booked.step (h : m.Booked) (hbalanced : m.ledger.Balanced start m.nextId)
    (hstep : CleanStep env m m') : m'.Booked := by
  have hbelow {before later : List (Entry cfg.rows)} {id : Int} {row : Fin cfg.rows}
      (hentries : m.entries = before ++ .share id row :: later) : id < m.nextId := by
    have hmem : (id, row) ∈ m.ledger.submissions := by
      rw [h.submissions, hentries]
      simp [Entry.share?]
    exact hbalanced.below _ hmem
  cases hstep.step.bookStep with
  | idle n hentries hledger hnextId =>
      refine ⟨by rw [hentries, hledger]; exact h.submissions, ?_⟩
      intro before id row later hsplit
      exact (h.shares before id row later (hentries.symm.trans hsplit)).same rfl (by rw [hledger]; rfl)
        fun v _ => by rw [hledger]; rfl
  | handled message hreceived hentries hledger hnextId =>
      have hrequest : isRequest message = true → m.ledger.account message = m.ledger :=
        fun hrequest => Ledger.account_of_notMem (hstep.requests message hreceived hrequest)
      refine ⟨?_, ?_⟩
      · rw [hledger, m.ledger.account_submissions, h.submissions, hentries, List.filterMap_append]
        simp [Entry.share?]
      · intro before id row later hsplit
        rw [hentries] at hsplit
        rcases snoc_eq_split hsplit with ⟨-, hlast, -⟩ | ⟨later', rfl, hbefore⟩
        · cases hlast
        · exact (h.shares before id row later' hbefore).handled hledger hrequest
  | sent row n hentries hledger hnextId =>
      refine ⟨?_, ?_⟩
      · rw [hledger, hentries, List.filterMap_append, ← h.submissions]
        rfl
      · intro before id row' later hsplit
        rw [hentries] at hsplit
        rcases snoc_eq_split hsplit with ⟨-, hlast, rfl⟩ | ⟨later', rfl, hbefore⟩
        · obtain ⟨rfl, rfl⟩ := Entry.share.inj hlast
          refine ⟨fun _ => ⟨?_, ?_⟩, fun message hmessage => (by cases hmessage)⟩
          · rw [hledger]
            exact AList.lookup_insert _
          · rw [hledger]
            intro v hv hid
            have hmem := hbalanced.conserved.mem_iff.mpr
              (List.mem_append_right _ (List.mem_map_of_mem (f := fun v => (v.1, v.2.1)) hv))
            have hless := hbalanced.below _ hmem
            omega
        · have hless := hbelow hbefore
          refine (h.shares before id row' later' hbefore).same (firstAnswer_snoc_share _ _ _ _) ?_ ?_
          · rw [hledger]
            exact AList.lookup_insert_ne (by omega)
          · intro v _
            rw [hledger]
            rfl

theorem booked_of_run {link : Link κ} (hrun : CleanRun env link start m) : m.Booked := by
  induction hrun with
  | refl =>
      refine ⟨rfl, ?_⟩
      intro before id row later hsplit
      exact absurd hsplit.symm (List.append_ne_nil_of_right_ne_nil _ (List.cons_ne_nil _ _))
  | tail hbefore hstep ih => exact ih.step (balanced_of_run (CleanRun.run hbefore)) hstep

/-- A message that has been handled has been entered in the books. -/
theorem Step.ledger_of_received {message : Json} (hstep : Step env m m')
    (hreceived : m'.received = m.received ++ [message]) :
    m'.ledger = m.ledger.account message := by
  have hnot (hsame : m'.received = m.received) : False := by
    rw [hsame] at hreceived
    exact absurd (congrArg List.length hreceived) (by simp)
  have hthis {made : Json} (hmade : m'.received = m.received ++ [made]) : made = message :=
    List.singleton_inj.mp (List.append_cancel_left (hmade.symm.trans hreceived))
  cases hstep.effect with
  | handledSv1 made buffer state state' job hlink hlink' hreceive hledger hnextId hqueued hmade =>
      rw [hledger, hthis hmade]
  | handledSv2 made session hlink hlink' hledger hnextId hqueued hmade => rw [hledger, hthis hmade]
  | idle n hlink hledger hnextId hqueued hsame => exact (hnot hsame).elim
  | received chunks ending messages hread hledger hnextId hempty hqueued hsame =>
      exact (hnot hsame).elim
  | sentSv1 f n buffer state hcheck hlink hlink' hledger hnextId hempty hqueued hsame =>
      exact (hnot hsame).elim
  | sentSv2 f n session session' hcheck hlink hlink' hlimit hsubmit hledger hnextId hempty hqueued
      hsame => exact (hnot hsame).elim

/-- The accounting looks only at the id of a message. So a request of the pool
leaves the books alone exactly when its id is not that of an outstanding share; and
in a run without a request that has such an id, every share is settled by the first
response with its id, and the counters are the verdicts of these responses. -/
theorem only_responses_settle :
    (∀ (m m' : Machine cfg κ) (message : Json), Run env (.sv1 [] {}) start m → Step env m m' →
      m'.received = m.received ++ [message] → isRequest message = true →
      (m'.ledger.pending = m.ledger.pending ∧ m'.ledger.view = m.ledger.view ↔
        m.Unrelated message)) ∧
      ∀ m : Machine cfg κ, CleanRun env (.sv1 [] {}) start m → m.OnlyResponsesSettle start := by
  refine ⟨?_, ?_⟩
  · intro m m' message hrun hstep hreceived hrequest
    rw [hstep.ledger_of_received hreceived]
    exact Ledger.account_unchanged_iff
  · intro m hrun
    have hbooked := booked_of_run hrun
    have hbalanced := balanced_of_run hrun.run
    refine ⟨hbooked.shares, ?_, hbalanced.total, hbalanced.device⟩
    intro v hv
    have hsubmitted : (v.1, v.2.1) ∈ m.ledger.submissions := hbalanced.conserved.mem_iff.mpr
      (List.mem_append_right _ (List.mem_map_of_mem (f := fun v => (v.1, v.2.1)) hv))
    rw [hbooked.submissions, List.mem_filterMap] at hsubmitted
    obtain ⟨entry, hentry, hshare⟩ := hsubmitted
    obtain ⟨before, later, hsplit⟩ := List.append_of_mem hentry
    cases entry with
    | message => cases hshare
    | share id row =>
        obtain ⟨hid, hrow⟩ := Prod.mk.inj (Option.some.inj hshare)
        exact ⟨before, later, by rw [hsplit, hid, hrow]⟩

private theorem Step.grows (h : Step env m m') :
    m.received ⊆ m'.received ∧ m.ledger.submissions ⊆ m'.ledger.submissions := by
  cases h.effect with
  | idle _ _ hledger _ _ hreceived =>
      rw [hreceived, hledger]
      exact ⟨List.Subset.refl _, List.Subset.refl _⟩
  | received _ _ _ _ hledger _ _ _ hreceived =>
      rw [hreceived, hledger]
      exact ⟨List.Subset.refl _, List.Subset.refl _⟩
  | handledSv1 message _ _ _ _ _ _ _ hledger _ _ hreceived =>
      rw [hreceived, hledger, m.ledger.account_submissions]
      exact ⟨List.subset_append_left _ _, List.Subset.refl _⟩
  | handledSv2 message _ _ _ hledger _ _ hreceived =>
      rw [hreceived, hledger, m.ledger.account_submissions]
      exact ⟨List.subset_append_left _ _, List.Subset.refl _⟩
  | sentSv1 _ _ _ _ _ _ _ hledger _ _ _ hreceived =>
      rw [hreceived, hledger]
      exact ⟨List.Subset.refl _, List.subset_append_left _ _⟩
  | sentSv2 _ _ _ _ _ _ _ _ _ hledger _ _ _ hreceived =>
      rw [hreceived, hledger]
      exact ⟨List.Subset.refl _, List.subset_append_left _ _⟩

/-- Requests under ids that no share has disturb nothing. -/
theorem CleanRun.of_run {link : Link κ} (hrun : Run env link start m)
    (hrequests : ∀ message ∈ m.received, isRequest message = true →
      ∀ id, message.integerMember? "id".toList = some id →
        id ∉ m.ledger.submissions.map Prod.fst) : CleanRun env link start m := by
  induction hrun with
  | refl => exact .refl
  | @tail m m' hbefore hstep ih =>
      obtain ⟨hgrows, hmore⟩ := hstep.grows
      have hfree : ∀ message ∈ m'.received, isRequest message = true →
          ∀ id, message.integerMember? "id".toList = some id →
            id ∉ m.ledger.submissions.map Prod.fst :=
        fun message hmessage hrequest id hid hmem =>
          hrequests message hmessage hrequest id hid (List.map_subset Prod.fst hmore hmem)
      refine (ih fun message hmessage => hfree message (hgrows hmessage)).tail ⟨hstep, ?_⟩
      intro message hreceived hrequest id hid hpending
      have hmem : message ∈ m'.received := by
        rw [hreceived]
        simp
      refine hfree message hmem hrequest id hid ?_
      obtain ⟨entry, hentry, hsame⟩ := List.mem_map.mp (Ledger.mem_keys_iff.mp hpending)
      exact List.mem_map.mpr ⟨entry, (balanced_of_run hbefore).conserved.mem_iff.mpr
        (List.mem_append_left _ hentry), hsame⟩

def questionLine : Text :=
  "\x7b\"id\":7,\"method\":\"client.get_version\",\"params\":[]\x7d".toList

/-- The pool asks under an id that no share has. -/
def question : Json :=
  .object [("id".toList, .integer 7), ("method".toList, .string "client.get_version".toList),
    ("params".toList, .array [])]

def talkLines : List (Text × Json) := [(questionLine, question), (acceptLine, accept)]

/-- A share is sent, then the pool asks something, and then it accepts the share. -/
theorem only_responses_settle_first :
    ∃ m : Machine sampleConfig Unit, Run (sampleEnv talkLines) (.sv1 [] {}) {} m ∧
      m.received = [subscribed, authorized, easy, notice, question, accept] ∧
      m.ledger.verdicts = [(10, theRow, .accepted)] ∧ m.OnlyResponsesSettle {} := by
  obtain ⟨m, state, job, hrun, hmines, -, hfound, hpending, hsubmissions, hverdicts, -, -, share,
    htrace⟩ := sample_submitted talkLines
  have hread : Link.read (sampleEnv talkLines) (.sv1 [] state) [lineBytes questionLine] .again =
      .ok ([question], .sv1 [] state) :=
    read_line (by decide) (by decide) (by decide) (by decide) rfl
  have hread' : Link.read (sampleEnv talkLines) (.sv1 [] state) [lineBytes acceptLine] .again =
      .ok ([accept], .sv1 [] state) :=
    read_line (by decide) (by decide) (by decide) (by decide) rfl
  obtain ⟨m₁, hquestion, hmines₁, hfound₁, -, htrace₁, hledger₁, -⟩ :=
    hmines.hear talkLines hfound hread rfl
  obtain ⟨m₂, haccept, -, -, -, htrace₂, hledger₂, -⟩ := hmines₁.hear talkLines hfound₁ hread' rfl
  have hlookup : m.ledger.pending.lookup 10 = some theRow := by
    rw [hpending]
    exact AList.lookup_insert _
  have hunrelated : m.ledger.account question = m.ledger := by
    refine Ledger.account_of_notMem ?_
    intro id hid
    have hother : question.integerMember? "id".toList = some 7 := rfl
    obtain rfl := Option.some.inj (hother.symm.trans hid)
    rw [hpending]
    exact fun hmem => ((AList.mem_insert _).mp hmem).elim (by decide) (AList.notMem_empty _)
  have hbooks : m₂.ledger = m.ledger.settle 10 theRow .accepted := by
    have hid : accept.integerMember? "id".toList = some 10 := rfl
    have houtcome : outcomeOf accept = .accepted := rfl
    rw [hledger₂, hledger₁, hunrelated]
    simp only [Ledger.account, hid, hlookup, houtcome]
  have hreceived : m₂.received = [subscribed, authorized, easy, notice, question, accept] := by
    rw [Machine.received, htrace₂, htrace₁, htrace]
    rfl
  have hrun' : Run (sampleEnv talkLines) (.sv1 [] {}) {} m₂ := (hrun.trans hquestion).trans haccept
  refine ⟨m₂, hrun', hreceived, ?_, only_responses_settle.2 m₂ (.of_run hrun' ?_)⟩
  · rw [hbooks, Ledger.settle, hverdicts]
    rfl
  · have hids : m₂.ledger.submissions.map Prod.fst = [10] := by
      rw [hbooks, Ledger.settle, hsubmissions]
      rfl
    rw [hreceived, hids]
    decide

def strayLine : Text :=
  "\x7b\"id\":10,\"method\":\"client.show_message\",\"params\":[\"hi\"]\x7d".toList

/-- The pool asks the miner to show a text, under an id of its own choice. -/
def stray : Json :=
  .object [("id".toList, .integer 10), ("method".toList, .string "client.show_message".toList),
    ("params".toList, .array [.string "hi".toList])]

/-- The request is counted as the rejection of the share that has its id. -/
theorem stray_request_settles :
    ∃ (m m' : Machine sampleConfig Unit), Run (sampleEnv [(strayLine, stray)]) (.sv1 [] {}) {} m ∧
      Step (sampleEnv [(strayLine, stray)]) m m' ∧ m'.received = m.received ++ [stray] ∧
      isRequest stray = true ∧ m.ledger.pending.lookup 10 = some theRow ∧
      m'.ledger.pending.lookup 10 = none ∧ m.ledger.view.total.rejected = 0 ∧
      m'.ledger.view.total.rejected = 1 := by
  obtain ⟨m, state, job, hrun, hmines, -, -, hpending, -, -, htotal, -⟩ :=
    sample_submitted [(strayLine, stray)]
  have hread : Link.read (sampleEnv [(strayLine, stray)]) (.sv1 [] state) [lineBytes strayLine]
      .again = .ok ([stray], .sv1 [] state) :=
    read_line (by decide) (by decide) (by decide) (by decide) rfl
  have hreceive : state.receive stray = .ok (none, state) := rfl
  have hlookup : m.ledger.pending.lookup 10 = some theRow := by
    rw [hpending]
    exact AList.lookup_insert _
  have haccount : m.ledger.account stray = m.ledger.settle 10 theRow .rejected := by
    have hid : stray.integerMember? "id".toList = some 10 := rfl
    have houtcome : outcomeOf stray = .rejected := rfl
    simp only [Ledger.account, hid, hlookup, houtcome]
  let ready : Machine sampleConfig Unit := { m with main := .handling [stray] }
  let next : Machine sampleConfig Unit :=
    { m.delivered stray state none with main := .handling [] }
  have hsteps : Run (sampleEnv [(strayLine, stray)]) (.sv1 [] {}) {} ready :=
    hrun.trans (iteration_read hmines.main hmines.link hread)
  have hstep : Step (sampleEnv [(strayLine, stray)]) ready next :=
    .main (handle_delivered hmines.link hreceive)
  obtain ⟨-, hledger, -, htrace, -⟩ := publish_sameBooks
    { m with
      trace := m.trace ++ [Event.received stray], link := .sv1 [] state
      ledger := m.ledger.account stray } state.authorized false
  have hbooks : next.ledger = m.ledger.settle 10 theRow .rejected := hledger.trans haccount
  refine ⟨ready, next, hsteps, hstep, ?_, rfl, hlookup, ?_, ?_, ?_⟩
  · have hhistory : next.trace = ready.trace ++ [Event.received stray] := htrace
    simp [Machine.received, hhistory]
  · rw [hbooks]
    exact AList.lookup_erase 10 m.ledger.pending
  · change m.ledger.view.total.rejected = 0
    rw [htotal]
  · rw [hbooks]
    change (m.ledger.view.total.count .rejected).rejected = 1
    rw [htotal]
    rfl

end Supryolo.Miner
