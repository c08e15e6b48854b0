import Supryolo.Miner.Iterations
import Mathlib.Algebra.BigOperators.Fin

namespace Supryolo.Miner

open scoped BigOperators

def Tally.get (t : Tally) : Outcome → Nat
  | .accepted => t.accepted
  | .rejected => t.rejected
  | .stale => t.stale

def Tally.sum (t : Tally) : Nat := t.accepted + t.rejected + t.stale

@[simp] theorem Tally.get_count (t : Tally) (o o' : Outcome) :
    (t.count o).get o' = t.get o' + if o = o' then 1 else 0 := by
  cases o <;> cases o' <;> rfl

/-- Each total is the sum over the device rows. -/
def View.Consistent {rows : Nat} (v : View rows) : Prop :=
  ∀ o, v.total.get o = ∑ row, (v.device row).get o

theorem View.Consistent.count {rows : Nat} {v : View rows} (h : v.Consistent) (row : Fin rows)
    (o : Outcome) :
    ({ v with
      total := v.total.count o
      device := Function.update v.device row ((v.device row).count o) } : View rows).Consistent := by
  intro o'
  have hrow (r : Fin rows) :
      (Function.update v.device row ((v.device row).count o) r).get o' =
        (v.device r).get o' + if r = row then (if o = o' then 1 else 0) else 0 := by
    by_cases hr : r = row
    · subst hr
      simp
    · simp [hr]
  simp only [Tally.get_count, hrow, Finset.sum_add_distrib, Finset.sum_ite_eq', Finset.mem_univ,
    if_true, h o']

namespace Ledger

variable {rows : Nat} {l : Ledger rows} {start : View rows} {next : Int}

def outstanding (l : Ledger rows) : List (Int × Fin rows) :=
  l.pending.entries.map fun entry => (entry.1, entry.2)

def counted (l : Ledger rows) : List (Int × Fin rows) := l.verdicts.map fun v => (v.1, v.2.1)

/-- The books since the counters stood at `start`, with ids below `next`. -/
structure Balanced (start : View rows) (next : Int) (l : Ledger rows) : Prop where
  conserved : l.submissions.Perm (l.outstanding ++ l.counted)
  distinct : (l.submissions.map Prod.fst).Nodup
  below : ∀ s ∈ l.submissions, s.1 < next
  total : ∀ o, l.view.total.get o = start.total.get o + l.verdicts.countP (·.2.2 = o)
  device : ∀ row o, (l.view.device row).get o =
    (start.device row).get o + l.verdicts.countP fun v => v.2.1 = row ∧ v.2.2 = o

theorem mem_keys_iff {id : Int} :
    id ∈ l.pending ↔ id ∈ l.outstanding.map Prod.fst := by
  simp [outstanding, AList.mem_keys, AList.keys, List.keys, Function.comp_def]

theorem Balanced.initial (view : View rows) (next : Int) :
    Balanced view next { view := view } where
  conserved := .refl _
  distinct := List.nodup_nil
  below := by simp
  total := by simp
  device := by simp

theorem Balanced.addCandidates (h : l.Balanced start next) (n : Nat) :
    (l.addCandidates n).Balanced start next :=
  ⟨h.conserved, h.distinct, h.below, h.total, h.device⟩

/-- A pending share moves to the verdicts. -/
theorem outstanding_settle {id : Int} {row : Fin rows} (o : Outcome)
    (hlookup : l.pending.lookup id = some row) :
    l.outstanding.Perm ((id, row) :: (l.settle id row o).outstanding) := by
  have hmem : id ∈ l.pending.entries.keys :=
    AList.lookup_isSome.mp (by rw [hlookup]; rfl)
  obtain ⟨row', before, after, -, hentries, herase⟩ := List.exists_of_kerase hmem
  have hrow : row' = row := by
    have hentry : Sigma.mk id row' ∈ l.pending.entries := by simp [hentries]
    have hfound : l.pending.lookup id = some row' := AList.mem_lookup_iff.mpr hentry
    rw [hlookup] at hfound
    exact (Option.some.inj hfound).symm
  have hleft : (l.settle id row o).pending.entries = before ++ after := herase
  rw [outstanding, outstanding, hentries, hleft, hrow]
  simp

theorem Balanced.settle (h : l.Balanced start next) {id : Int} {row : Fin rows} (o : Outcome)
    (hlookup : l.pending.lookup id = some row) : (l.settle id row o).Balanced start next where
  conserved := by
    have hcounted : (l.settle id row o).counted = l.counted ++ [(id, row)] := by
      simp [counted, Ledger.settle]
    rw [hcounted]
    refine h.conserved.trans (((outstanding_settle o hlookup).append_right _).trans ?_)
    rw [← List.append_assoc]
    exact (List.perm_append_singleton _ _).symm
  distinct := h.distinct
  below := h.below
  total := by
    intro o'
    simp only [Ledger.settle, Tally.get_count, h.total o', List.countP_append, List.countP_singleton,
      decide_eq_true_eq]
    omega
  device := by
    intro row' o'
    simp only [Ledger.settle, List.countP_append, List.countP_singleton, decide_eq_true_eq]
    by_cases hrow : row = row'
    · subst hrow
      simp only [Function.update_self, Tally.get_count, h.device row o', true_and]
      omega
    · simp only [Function.update_of_ne (Ne.symm hrow), h.device row' o', hrow, false_and, if_false]
      omega

theorem Balanced.account (h : l.Balanced start next) (message : Json) :
    (l.account message).Balanced start next := by
  unfold Ledger.account
  split
  · exact h
  · split
    · exact h
    · exact h.settle _ ‹_›

/-- An id that was never handed out is not outstanding. -/
theorem Balanced.next_notMem (h : l.Balanced start next) : next ∉ l.pending := by
  intro hmem
  obtain ⟨s, hs, hid⟩ := List.mem_map.mp (mem_keys_iff.mp hmem)
  have hsubmitted := h.conserved.mem_iff.mpr (List.mem_append_left _ hs)
  have hbelow := h.below s hsubmitted
  omega

theorem outstanding_submit {id : Int} (row : Fin rows) (hfresh : id ∉ l.pending) :
    (l.submit id row).outstanding = (id, row) :: l.outstanding := by
  have hentries : (l.submit id row).pending.entries = ⟨id, row⟩ :: l.pending.entries :=
    AList.entries_insert_of_notMem hfresh
  rw [outstanding, hentries]
  rfl

theorem Balanced.submit (h : l.Balanced start next) (row : Fin rows) :
    (l.submit next row).Balanced start (next + 1) where
  conserved := by
    rw [outstanding_submit row h.next_notMem]
    refine (List.perm_append_singleton _ _).trans ?_
    exact h.conserved.cons _
  distinct := by
    rw [show (l.submit next row).submissions = l.submissions ++ [(next, row)] from rfl,
      List.map_append, List.nodup_append]
    refine ⟨h.distinct, List.nodup_singleton _, ?_⟩
    intro id hid other hother heq
    obtain ⟨s, hs, rfl⟩ := List.mem_map.mp hid
    have hbelow := h.below s hs
    rw [List.map_singleton, List.mem_singleton] at hother
    omega
  below := by
    intro s hs
    rcases List.mem_append.mp hs with hs | hs
    · have hbelow := h.below s hs
      omega
    · rw [List.mem_singleton.mp hs]
      exact Int.lt_succ next
  total := h.total
  device := h.device

theorem consistent_account (h : l.view.Consistent) (message : Json) :
    (l.account message).view.Consistent := by
  unfold Ledger.account
  split
  · exact h
  · split
    · exact h
    · exact h.count _ _

/-- A message about no outstanding share changes nothing. -/
theorem account_of_notMem {message : Json}
    (hunknown : ∀ id, message.integerMember? "id".toList = some id → id ∉ l.pending) :
    l.account message = l := by
  unfold Ledger.account
  split
  · rfl
  · rename_i id hid
    rw [AList.lookup_eq_none.mpr (hunknown id hid)]

/-- What is no longer outstanding after a message is what the message names. -/
theorem outstanding_account {message : Json} {id : Int}
    (hid : message.integerMember? "id".toList = some id) (hpending : id ∈ l.pending) :
    (l.outstanding.map Prod.fst).Perm (id :: (l.account message).outstanding.map Prod.fst) := by
  obtain ⟨row, hlookup⟩ := Option.isSome_iff_exists.mp (AList.lookup_isSome.mpr hpending)
  have haccount : l.account message = l.settle id row (outcomeOf message) := by
    simp only [Ledger.account, hid, hlookup]
  rw [haccount]
  exact (outstanding_settle _ hlookup).map Prod.fst

end Ledger

variable {cfg : Config} {κ : Type} {env : Env κ} {m m' : Machine cfg κ}
  {start : View cfg.rows}

theorem balanced_step (hstep : Step env m m') (h : m.ledger.Balanced start m.nextId) :
    m'.ledger.Balanced start m'.nextId := by
  cases hstep.effect with
  | idle n hlink hledger hnextId =>
      rw [hledger, hnextId]
      exact h.addCandidates n
  | received chunks ending messages hread hledger hnextId =>
      rw [hledger, hnextId]
      exact h
  | handledSv1 message buffer state state' job hlink hlink' hreceive hledger hnextId =>
      rw [hledger, hnextId]
      exact h.account message
  | handledSv2 message session hlink hlink' hledger hnextId =>
      rw [hledger, hnextId]
      exact h.account message
  | sentSv1 f n buffer state hcheck hlink hlink' hledger hnextId =>
      rw [hledger, hnextId]
      exact (h.addCandidates n).submit f.row
  | sentSv2 f n session session' hcheck hlink hlink' hlimit hsubmit hledger hnextId =>
      rw [hledger, hnextId]
      exact (h.addCandidates n).submit f.row

/-- The books balance in every state of every run. -/
theorem balanced_of_run {link : Link κ} (hrun : Run env link start m) :
    m.ledger.Balanced start m.nextId := by
  induction hrun with
  | refl => exact .initial start 10
  | tail _ hstep ih => exact balanced_step hstep ih

theorem consistent_of_run {link : Link κ} (hstart : start.Consistent)
    (hrun : Run env link start m) : m.ledger.view.Consistent := by
  induction hrun with
  | refl => exact hstart
  | tail _ hstep ih =>
      cases hstep.effect with
      | idle n hlink hledger => rw [hledger]; exact ih
      | received chunks ending messages hread hledger => rw [hledger]; exact ih
      | handledSv1 message buffer state state' job hlink hlink' hreceive hledger =>
          rw [hledger]
          exact Ledger.consistent_account ih message
      | handledSv2 message session hlink hlink' hledger =>
          rw [hledger]
          exact Ledger.consistent_account ih message
      | sentSv1 f n buffer state hcheck hlink hlink' hledger => rw [hledger]; exact ih
      | sentSv2 f n session session' hcheck hlink hlink' hlimit hsubmit hledger =>
          rw [hledger]
          exact ih

theorem consistent_of_opens (hopens : Opens cfg env start) : start.Consistent := by
  induction hopens with
  | first => intro o; cases o <;> simp [Tally.get]
  | again _ _ hrun _ ih => exact consistent_of_run ih hrun

/-- The ids both sides hold, and how many there can be. -/
structure Machine.Synced (m : Machine cfg κ) : Prop where
  agree : ∀ session, m.link = .sv2 session →
    (m.ledger.outstanding.map Prod.fst).Perm (Sv2.sharesIn m.queued ++ session.outstanding)
  limit : m.ledger.outstanding.length ≤ 4096
  positive : 0 < m.nextId

theorem Ledger.length_account {rows : Nat} (l : Ledger rows) (message : Json) :
    (l.account message).outstanding.length ≤ l.outstanding.length := by
  unfold Ledger.account
  split
  · exact le_refl _
  · split
    · exact le_refl _
    · rename_i hlookup
      rw [(Ledger.outstanding_settle (outcomeOf message) hlookup).length_eq]
      exact Nat.le_succ _

/-- An event taken from the queue is taken from both records. -/
theorem Machine.Synced.handle (h : m.Synced) {message : Json} {session : Sv2.Session κ}
    (hlink : m.link = .sv2 session) {rest : List Json} (hqueued : m.queued = message :: rest) :
    ((m.ledger.account message).outstanding.map Prod.fst).Perm
      (Sv2.sharesIn rest ++ session.outstanding) := by
  have hagree := h.agree session hlink
  rw [hqueued] at hagree
  cases hid : message.integerMember? "id".toList with
  | none =>
      have hunknown : ∀ id, message.integerMember? "id".toList = some id →
          id ∉ m.ledger.pending := by
        intro id hsome
        rw [hid] at hsome
        cases hsome
      rw [Ledger.account_of_notMem hunknown, ← Sv2.sharesIn_of_none rest hid]
      exact hagree
  | some id =>
      rw [Sv2.sharesIn_of_some rest hid, List.cons_append] at hagree
      have hpending : id ∈ m.ledger.pending :=
        Ledger.mem_keys_iff.mpr (hagree.mem_iff.mpr List.mem_cons_self)
      exact ((Ledger.outstanding_account hid hpending).symm.trans hagree).cons_inv

/-- A share that goes out is outstanding on both sides. -/
theorem Machine.Synced.send (h : m.Synced) (hbalanced : m.ledger.Balanced start m.nextId)
    {session session' : Sv2.Session κ} {f : Found cfg.rows} (n : Nat)
    (hlink : m.link = .sv2 session) (hempty : m.queued = []) (hlimit : m.nextId ≤ 0xffffffff)
    (hsubmit : session.submit env.foreign f.job f.nonce m.nextId.toNat.toUInt32 = .ok session') :
    (((m.ledger.addCandidates n).submit m.nextId f.row).outstanding.map Prod.fst).Perm
      session'.outstanding := by
  obtain ⟨-, noise, written, rfl⟩ := Sv2.Session.submit_ok hsubmit
  have hid : (m.nextId.toNat.toUInt32.toNat : Int) = m.nextId := by
    have hpositive := h.positive
    rw [Nat.toUInt32, UInt32.toNat_ofNat']
    omega
  have hagree := h.agree session hlink
  rw [hempty] at hagree
  have hfresh := (hbalanced.addCandidates n).next_notMem
  rw [Ledger.outstanding_submit f.row hfresh, List.map_cons]
  simp only [Sv2.Session.outstanding, List.map_append, List.map_singleton, hid]
  exact (hagree.cons _).trans (List.perm_append_singleton _ _).symm

private theorem limit_of_send {f : Found cfg.rows} {n : Nat}
    (hcheck : m.checkShare f = .ok (some n)) (hbalanced : m.ledger.Balanced start m.nextId)
    (hledger : m'.ledger = (m.ledger.addCandidates n).submit m.nextId f.row) :
    m'.ledger.outstanding.length ≤ 4096 := by
  obtain ⟨-, -, hlimit, -⟩ := checkShare_ok hcheck
  rw [hledger, Ledger.outstanding_submit f.row (hbalanced.addCandidates n).next_notMem,
    List.length_cons, Ledger.outstanding, List.length_map]
  exact hlimit

theorem synced_step (hstep : Step env m m') (hbalanced : m.ledger.Balanced start m.nextId)
    (h : m.Synced) : m'.Synced := by
  cases hstep.effect with
  | idle n hlink hledger hnextId hqueued =>
      refine ⟨?_, by rw [hledger]; exact h.limit, by rw [hnextId]; exact h.positive⟩
      intro session hsession
      rw [hlink] at hsession
      rcases hqueued with hqueued | ⟨buffer, state, hsv1⟩
      · rw [hledger, hqueued]
        exact h.agree session hsession
      · rw [hsv1] at hsession
        cases hsession
  | received chunks ending messages hread hledger hnextId hempty hqueued =>
      refine ⟨?_, by rw [hledger]; exact h.limit, by rw [hnextId]; exact h.positive⟩
      intro session hsession
      rw [hsession] at hread
      obtain ⟨before, bytes, hbefore, hreceive⟩ := read_sv2 hread
      have hagree := h.agree before hbefore
      rw [hempty] at hagree
      rw [hledger, hqueued]
      exact hagree.trans (Sv2.receive_conserves hreceive).symm
  | handledSv1 message buffer state state' job hlink hlink' hreceive hledger hnextId =>
      refine ⟨?_, ?_, by rw [hnextId]; exact h.positive⟩
      · intro session hsession
        rw [hlink'] at hsession
        cases hsession
      · rw [hledger]
        exact (Ledger.length_account _ _).trans h.limit
  | handledSv2 message session hlink hlink' hledger hnextId hqueued =>
      refine ⟨?_, ?_, by rw [hnextId]; exact h.positive⟩
      · intro session' hsession
        obtain rfl := Link.sv2.inj (hlink'.symm.trans hsession)
        rw [hledger]
        exact h.handle hlink hqueued
      · rw [hledger]
        exact (Ledger.length_account _ _).trans h.limit
  | sentSv1 f n buffer state hcheck hlink hlink' hledger hnextId =>
      have hpositive := h.positive
      refine ⟨?_, ?_, by omega⟩
      · intro session hsession
        rw [hlink'] at hsession
        cases hsession
      · exact limit_of_send hcheck hbalanced hledger
  | sentSv2 f n session session' hcheck hlink hlink' hlimit hsubmit hledger hnextId hempty hqueued =>
      have hpositive := h.positive
      refine ⟨?_, limit_of_send hcheck hbalanced hledger, by omega⟩
      intro session'' hsession
      obtain rfl := Link.sv2.inj (hlink'.symm.trans hsession)
      rw [hledger, hqueued]
      exact h.send hbalanced n hlink hempty hlimit hsubmit

theorem synced_of_run {link : Link κ} (hfresh : link.Fresh) (hrun : Run env link start m) :
    m.Synced := by
  induction hrun with
  | refl =>
      refine ⟨?_, Nat.zero_le _, (by decide : (0 : Int) < 10)⟩
      intro session hsession
      cases hfresh with
      | sv1 => cases hsession
      | sv2 state first host port user rate =>
          obtain rfl := Link.sv2.inj hsession
          exact .refl _
  | tail hbefore hstep ih => exact synced_step hstep (balanced_of_run hbefore) ih

end Supryolo.Miner
