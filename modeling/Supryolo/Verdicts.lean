import Supryolo.Session

/-!
Settlement of SV2 shares against a pool that keeps its word. The pool has one
verdict for every share; it reports a rejection once, whenever it likes, and
acknowledges accepted shares in batches that name the last share and how many
were accepted since the batch before. The session sees counts only. What ties
the two together is a floor: every share up to it is settled, above it nothing
accepted is, and the queued batches lead from the floor to the last
acknowledged share.
-/

namespace Supryolo.Sv2

open Session

/-- The traffic of a channel as the pool knows it. -/
structure PoolLog where
  submitted : List UInt32 := []
  lastBatch : UInt32 := 0
  reported : List UInt32 := []

/-- A read of the session, the pool's log and the events emitted so far. -/
structure Exchange (κ : Type) where
  session : Session κ
  pool : PoolLog := {}
  events : List Json := []

variable {κ : Type} (lib : Foreign κ) (verdict : UInt32 → Bool)

/-- Accepted shares after `after` and up to `upTo`. -/
def acceptedBetween (submitted : List UInt32) (after upTo : UInt32) : List UInt32 :=
  submitted.filter fun s => verdict s && decide (after < s) && decide (s ≤ upTo)

/-- The messages such a pool may send next, and what it notes down. -/
inductive PoolSays (channel : UInt32) : PoolLog → Message → PoolLog → Prop
  | batch (p : PoolLog) (last count : UInt32) (sum : UInt64) (hlater : p.lastBatch < last)
      (hsubmitted : last ∈ p.submitted) (haccepted : verdict last = true)
      (hcount : count.toNat = (acceptedBetween verdict p.submitted p.lastBatch last).length) :
      PoolSays channel p (.accepted channel last count sum) { p with lastBatch := last }
  | reject (p : PoolLog) (s : UInt32) (reason : Text) (hsubmitted : s ∈ p.submitted)
      (hrejected : verdict s = false) (honce : s ∉ p.reported) :
      PoolSays channel p (.rejected channel s reason) { p with reported := s :: p.reported }
  | other (p : PoolLog) (message : Message) (hother : message.isVerdict = false) :
      PoolSays channel p message p

inductive PoolSaysAll (channel : UInt32) : PoolLog → List Message → PoolLog → Prop
  | nil (p : PoolLog) : PoolSaysAll channel p [] p
  | cons {p q r : PoolLog} {message : Message} {messages : List Message}
      (hfirst : PoolSays verdict channel p message q)
      (hrest : PoolSaysAll channel q messages r) :
      PoolSaysAll channel p (message :: messages) r

/-- The session submits a share, or a read brings messages of the pool. -/
inductive Exchange.Step : Exchange κ → Exchange κ → Prop
  | submit (x : Exchange κ) (j : Job) (nonce : UInt64) (sequence : UInt32) (session : Session κ)
      (hsubmit : x.session.submit lib j nonce sequence = .ok session) :
      Exchange.Step x
        { x with
          session := session
          pool := { x.pool with submitted := x.pool.submitted ++ [sequence] } }
  | deliver (x : Exchange κ) (bytes : Bytes) (frames : List Frame) (noise : Noise κ)
      (messages : List Message) (pool : PoolLog) (out : List Json) (session : Session κ)
      (hnoise : x.session.noise.receive lib.cipher bytes = .ok (frames, noise))
      (hdecode : List.Forall₂ (fun frame message => decode frame = .ok message) frames messages)
      (hpool : PoolSaysAll verdict x.session.channel x.pool messages pool)
      (hreceive : x.session.receive lib bytes = .ok (out, session)) :
      Exchange.Step x ⟨session, pool, x.events ++ out⟩

/-- Just after the channel was opened. -/
def Session.Opened (s : Session κ) : Prop :=
  s.phase = 3 ∧ s.pending = [] ∧ s.batches = [] ∧ s.lastAck = 0

def Exchange.Run (start : Session κ) : Exchange κ → Prop :=
  Relation.ReflTransGen (Exchange.Step lib verdict) { session := start }

/-- The verdicts the events gave on one share. -/
def verdictsFor (s : UInt32) (events : List Json) : List Bool :=
  (events.filterMap verdictOf).filterMap fun v => if v.1 = (s.toNat : Int) then some v.2 else none

@[simp] theorem verdictsFor_append (s : UInt32) (first second : List Json) :
    verdictsFor s (first ++ second) = verdictsFor s first ++ verdictsFor s second := by
  simp [verdictsFor]

/-- Not settled yet: accepted and above the floor, or rejected and not
reported. -/
def isOpen (floor : UInt32) (reported : List UInt32) (s : UInt32) : Bool :=
  if verdict s then decide (floor < s) else decide (s ∉ reported)

/-- The queued batches lead from the floor to the last acknowledged share. -/
def Chain (submitted : List UInt32) : UInt32 → List Batch → UInt32 → Prop
  | floor, [], last => floor = last
  | floor, b :: rest, last =>
      floor < b.last ∧
        b.count.toNat = (acceptedBetween verdict submitted floor b.last).length ∧
        Chain submitted b.last rest last

structure Tracks (p : PoolLog) (floor : UInt32) (batches : List Batch)
    (pending : List UInt32) : Prop where
  pending_eq : pending = p.submitted.filter (isOpen verdict floor p.reported)
  clear : ∀ s ∈ p.submitted, verdict s = false → s ≤ floor → s ∈ p.reported
  chain : Chain verdict p.submitted floor batches p.lastBatch

/-- The front batch waits for a rejection that is still on its way. -/
def Blocked (p : PoolLog) (batches : List Batch) : Prop :=
  ∀ b rest, batches = b :: rest →
    ∃ s ∈ p.submitted, verdict s = false ∧ s ∉ p.reported ∧ s ≤ b.last

variable {verdict}

/-- Raising the floor closes shares and opens none. -/
theorem isOpen_of_le {floor floor' : UInt32} {reported : List UInt32} {s : UInt32}
    (hle : floor ≤ floor') (hopen : isOpen verdict floor' reported s = true) :
    isOpen verdict floor reported s = true := by
  unfold isOpen at hopen ⊢
  cases hverdict : verdict s with
  | true =>
      simp only [hverdict, if_true, decide_eq_true_eq] at hopen ⊢
      grind
  | false => simpa [hverdict] using hopen

/-- Only accepted shares are closed by raising the floor. -/
theorem verdict_of_closed {floor floor' : UInt32} {reported : List UInt32} {s : UInt32}
    (hopen : isOpen verdict floor reported s = true)
    (hclosed : isOpen verdict floor' reported s = false) : verdict s = true := by
  unfold isOpen at hopen hclosed
  cases hverdict : verdict s with
  | true => rfl
  | false =>
      simp only [hverdict] at hopen hclosed
      exact absurd hclosed (by simpa using hopen)

theorem Chain.le {submitted : List UInt32} {floor last : UInt32} {batches : List Batch}
    (hchain : Chain verdict submitted floor batches last) : floor ≤ last := by
  induction batches generalizing floor with
  | nil => exact UInt32.le_of_eq hchain
  | cons b rest ih =>
      have hrest := ih hchain.2.2
      have hlt := hchain.1
      grind

/-- Adding a batch at the end of the queue. -/
theorem Chain.snoc {submitted : List UInt32} {floor last next count : UInt32}
    {batches : List Batch} (hchain : Chain verdict submitted floor batches last)
    (hlater : last < next)
    (hcount : count.toNat = (acceptedBetween verdict submitted last next).length) :
    Chain verdict submitted floor (batches ++ [⟨next, count⟩]) next := by
  induction batches generalizing floor with
  | nil =>
      obtain rfl : floor = last := hchain
      exact ⟨hlater, hcount, rfl⟩
  | cons b rest ih => exact ⟨hchain.1, hchain.2.1, ih hchain.2.2⟩

/-- Shares submitted later lie above every queued batch. -/
theorem Chain.submit {submitted : List UInt32} {floor last sequence : UInt32}
    {batches : List Batch} (hchain : Chain verdict submitted floor batches last)
    (hlater : last < sequence) :
    Chain verdict (submitted ++ [sequence]) floor batches last := by
  induction batches generalizing floor with
  | nil => exact hchain
  | cons b rest ih =>
      have hle := hchain.2.2.le
      have habove : ¬ sequence ≤ b.last := by grind
      refine ⟨hchain.1, ?_, ih hchain.2.2⟩
      rw [hchain.2.1]
      simp [acceptedBetween, habove]

section Settle

variable {p : PoolLog} {floor : UInt32} {b : Batch} {rest : List Batch} {pending : List UInt32}

/-- The pending shares up to the front batch are the accepted ones it counts
and the rejected ones not reported yet. -/
theorem Tracks.countP (h : Tracks verdict p floor (b :: rest) pending) :
    pending.countP (· ≤ b.last) =
      b.count.toNat + p.submitted.countP
        (fun s => !verdict s && decide (s ∉ p.reported) && decide (s ≤ b.last)) := by
  rw [h.chain.2.1, h.pending_eq, List.countP_eq_countP_filter_add _ _ verdict, List.filter_filter,
    List.filter_filter, List.countP_filter, List.countP_filter, acceptedBetween,
    ← List.countP_eq_length_filter]
  congr 1
  · apply List.countP_congr
    intro s _
    cases hverdict : verdict s <;> simp [isOpen, hverdict, and_comm]
  · apply List.countP_congr
    intro s _
    cases hverdict : verdict s <;> simp [isOpen, hverdict, and_comm]

/-- Nothing is in the way of the front batch: settling it raises the floor. -/
theorem Tracks.raise (h : Tracks verdict p floor (b :: rest) pending)
    (hnone : ∀ s ∈ p.submitted, verdict s = false → s ≤ b.last → s ∈ p.reported) :
    Tracks verdict p b.last rest (pending.filter fun s => !decide (s ≤ b.last)) where
  pending_eq := by
    rw [h.pending_eq, List.filter_filter]
    apply List.filter_congr
    intro s hs
    have hfloor := h.chain.1
    have hreported := hnone s hs
    unfold isOpen
    cases hverdict : verdict s with
    | true =>
        simp only [if_true]
        by_cases hle : s ≤ b.last
        · simp [hle]
        · have habove : b.last < s := by grind
          have hopen : floor < s := by grind
          simp [hle, habove, hopen]
    | false =>
        by_cases hle : s ≤ b.last
        · simp [hle, hreported hverdict hle]
        · simp [hle]
  clear := hnone
  chain := h.chain.2.2

theorem verdictsFor_accepted {sequences : List UInt32} (hnodup : sequences.Nodup) (s : UInt32) :
    verdictsFor s (sequences.map acceptedEvent) = if s ∈ sequences then [true] else [] := by
  rw [verdictsFor, verdicts_accepted]
  induction sequences with
  | nil => rfl
  | cons t more ih =>
      obtain ⟨hout, hmore⟩ := List.nodup_cons.mp hnodup
      have hrest := ih hmore
      rw [List.map_cons, List.filterMap_cons]
      by_cases heq : t = s
      · subst heq
        simp [hrest, hout]
      · have hne : ¬ (t.toNat : Int) = s.toNat := fun h => heq (UInt32.toNat_inj.mp (by exact_mod_cast h))
        have hne' : ¬ s = t := fun h => heq h.symm
        simp [hne, hrest, hne']

/-- `settle` does not throw; it settles batches until one is blocked by a
rejection in flight, and every share it takes off is an accepted one. -/
theorem settle_spec (hincreasing : p.submitted.Nodup) (batches : List Batch)
    (h : Tracks verdict p floor batches pending) :
    ∃ floor' out batches' pending', settle batches pending = .ok (out, batches', pending') ∧
      Tracks verdict p floor' batches' pending' ∧ Blocked verdict p batches' ∧ floor ≤ floor' ∧
      (∀ s ∈ p.submitted, verdictsFor s out =
        if isOpen verdict floor p.reported s && !isOpen verdict floor' p.reported s then [true]
        else []) ∧
      ∀ v ∈ out.filterMap verdictOf, ∃ s ∈ p.submitted, v.1 = (s.toNat : Int) := by
  induction batches generalizing floor pending with
  | nil =>
      refine ⟨floor, [], [], pending, rfl, h, ?_, UInt32.le_refl _, ?_, ?_⟩
      · intro b rest hcons
        cases hcons
      · intro s _
        simp [verdictsFor]
      · intro v hv
        cases hv
  | cons b rest ih =>
      have hcount := h.countP
      have hbelow : ¬ pending.countP (· ≤ b.last) < b.count.toNat := by omega
      unfold settle
      rw [if_neg hbelow]
      by_cases hequal : pending.countP (· ≤ b.last) = b.count.toNat
      · have hzero : p.submitted.countP
            (fun s => !verdict s && decide (s ∉ p.reported) && decide (s ≤ b.last)) = 0 := by omega
        have hnone : ∀ s ∈ p.submitted, verdict s = false → s ≤ b.last → s ∈ p.reported := by
          intro s hs hrejected hle
          have hnot := List.countP_eq_zero.mp hzero s hs
          simpa [hrejected, hle] using hnot
        have hraised := h.raise hnone
        obtain ⟨floor', out, batches', pending', hsettle, htracks, hblocked, hfloor, hout, hids⟩ :=
          ih hraised
        have hlt := h.chain.1
        have hdone (s : UInt32) (hs : s ∈ p.submitted) :
            s ∈ pending.filter (· ≤ b.last) ↔
              isOpen verdict floor p.reported s = true ∧ isOpen verdict b.last p.reported s = false := by
          rw [h.pending_eq, List.filter_filter, List.mem_filter]
          have hreported := hnone s hs
          unfold isOpen
          cases hverdict : verdict s with
          | true =>
              simp only [if_true, hs, true_and, Bool.and_eq_true, decide_eq_true_eq,
                decide_eq_false_iff_not, UInt32.not_lt]
              exact and_comm
          | false =>
              by_cases hle : s ≤ b.last
              · simp [hs, hreported hverdict hle]
              · simp [hs, hle]
        refine ⟨floor', (pending.filter (· ≤ b.last)).map acceptedEvent ++ out, batches', pending', ?_,
          htracks, hblocked, by grind, ?_, ?_⟩
        · rw [if_neg (not_not.mpr hequal), hsettle]
          rfl
        · intro s hs
          have hnodup : (pending.filter (· ≤ b.last)).Nodup := by
            rw [h.pending_eq]
            exact (hincreasing.filter _).filter _
          rw [verdictsFor_append, verdictsFor_accepted hnodup, hout s hs]
          simp only [hdone s hs]
          cases hlast : isOpen verdict floor' p.reported s with
          | true =>
              have hmiddle := isOpen_of_le hfloor hlast
              simp [hmiddle]
          | false =>
              cases hmiddle : isOpen verdict b.last p.reported s with
              | true =>
                  have hfirst := isOpen_of_le (by grind : floor ≤ b.last) hmiddle
                  simp [hfirst]
              | false => simp
        · intro v hv
          rw [List.filterMap_append, verdicts_accepted, List.mem_append] at hv
          rcases hv with hfirst | hrest
          · obtain ⟨s, hs, rfl⟩ := List.mem_map.mp hfirst
            refine ⟨s, ?_, rfl⟩
            rw [h.pending_eq] at hs
            exact (List.mem_filter.mp (List.mem_filter.mp hs).1).1
          · exact hids v hrest
      · refine ⟨floor, [], b :: rest, pending, ?_, h, ?_, UInt32.le_refl _, ?_, ?_⟩
        · rw [if_pos hequal]
          rfl
        · intro front tail hcons
          cases hcons
          have hpositive : 0 < p.submitted.countP
              (fun s => !verdict s && decide (s ∉ p.reported) && decide (s ≤ b.last)) := by omega
          obtain ⟨s, hs, hopen⟩ := List.countP_pos_iff.mp hpositive
          simp only [Bool.and_eq_true, Bool.not_eq_true', decide_eq_true_eq] at hopen
          exact ⟨s, hs, hopen.1.1, hopen.1.2, hopen.2⟩
        · intro s _
          simp [verdictsFor]
        · intro v hv
          cases hv

end Settle

/-! ### Agreement -/

/-- Session, pool and events agree on every share. -/
structure Agrees (verdict : UInt32 → Bool) (x : Exchange κ) (floor : UInt32) : Prop where
  phase : x.session.phase = 3
  lastAck : x.session.lastAck = x.pool.lastBatch
  increasing : x.pool.submitted.Pairwise (· < ·)
  sent : ∀ s ∈ x.pool.submitted, s ≤ x.session.lastSent
  acknowledged : x.pool.lastBatch ≤ x.session.lastSent
  reported : ∀ s ∈ x.pool.reported, s ∈ x.pool.submitted ∧ verdict s = false
  tracks : Tracks verdict x.pool floor x.session.batches x.session.pending
  blocked : Blocked verdict x.pool x.session.batches
  size : x.session.pending.length ≤ 4096
  verdicts : ∀ s ∈ x.pool.submitted,
    verdictsFor s x.events = if isOpen verdict floor x.pool.reported s then [] else [verdict s]
  known : ∀ v ∈ x.events.filterMap verdictOf, ∃ s ∈ x.pool.submitted, v.1 = (s.toNat : Int)

namespace Agrees

variable {lib : Foreign κ} {x : Exchange κ} {floor : UInt32}

theorem nodup (h : Agrees verdict x floor) : x.pool.submitted.Nodup :=
  h.increasing.imp fun hlt => UInt32.ne_of_lt hlt

theorem initial {start : Session κ} (hopen : start.Opened) :
    Agrees verdict { session := start } 0 where
  phase := hopen.1
  lastAck := hopen.2.2.2
  increasing := List.Pairwise.nil
  sent s hs := by cases hs
  acknowledged := UInt32.zero_le
  reported s hs := by cases hs
  tracks :=
    { pending_eq := hopen.2.1
      clear := fun s hs => by cases hs
      chain := by rw [hopen.2.2.1]; rfl }
  blocked b rest hcons := by
    rw [hopen.2.2.1] at hcons
    cases hcons
  size := by rw [hopen.2.1]; exact Nat.zero_le _
  verdicts s hs := by cases hs
  known v hv := by cases hv

theorem noise (h : Agrees verdict x floor) (noise : Noise κ) :
    Agrees verdict { x with session := { x.session with noise := noise } } floor :=
  ⟨h.phase, h.lastAck, h.increasing, h.sent, h.acknowledged, h.reported, h.tracks, h.blocked,
    h.size, h.verdicts, h.known⟩

/-- The prompt that ends every message says nothing about shares. -/
theorem prompt (h : Agrees verdict x floor) :
    Agrees verdict { x with events := x.events ++ [promptEvent] } floor where
  phase := h.phase
  lastAck := h.lastAck
  increasing := h.increasing
  sent := h.sent
  acknowledged := h.acknowledged
  reported := h.reported
  tracks := h.tracks
  blocked := h.blocked
  size := h.size
  verdicts s hs := by
    have hprompt : verdictsFor s [promptEvent] = [] := rfl
    change verdictsFor s (x.events ++ [promptEvent]) = _
    rw [verdictsFor_append, hprompt, List.append_nil]
    exact h.verdicts s hs
  known v hv := by
    have hprompt : [promptEvent].filterMap verdictOf = [] := rfl
    change v ∈ (x.events ++ [promptEvent]).filterMap verdictOf at hv
    rw [List.filterMap_append, hprompt, List.append_nil] at hv
    exact h.known v hv

/-- A new share is pending: it lies above the floor and is not reported. -/
theorem submit (h : Agrees verdict x floor) {j : Job} {nonce : UInt64} {sequence : UInt32}
    {session : Session κ} (hsubmit : x.session.submit lib j nonce sequence = .ok session) :
    Agrees verdict
      { x with
        session := session
        pool := { x.pool with submitted := x.pool.submitted ++ [sequence] } } floor := by
  obtain ⟨hguard, noise, written, rfl⟩ := Session.submit_ok hsubmit
  simp only [submittable, Bool.and_eq_true, decide_eq_true_eq] at hguard
  have hlater : x.session.lastSent < sequence := hguard.1.2
  have hfloor : floor < sequence := by
    have hle := h.tracks.chain.le
    have hack := h.acknowledged
    grind
  have hnew : sequence ∉ x.pool.submitted := fun hmem => by
    have hle := h.sent sequence hmem
    grind
  have hunreported : sequence ∉ x.pool.reported := fun hmem => hnew (h.reported sequence hmem).1
  have hopen : isOpen verdict floor x.pool.reported sequence = true := by
    unfold isOpen
    split <;> simp [hfloor, hunreported]
  exact
    { phase := h.phase
      lastAck := h.lastAck
      increasing := by
        rw [List.pairwise_append]
        refine ⟨h.increasing, List.pairwise_singleton _ _, ?_⟩
        intro s hs t ht
        obtain rfl := List.mem_singleton.mp ht
        have hle := h.sent s hs
        grind
      sent := by
        intro s hs
        rcases List.mem_append.mp hs with hold | hsame
        · have hle := h.sent s hold
          change s ≤ sequence
          grind
        · obtain rfl := List.mem_singleton.mp hsame
          exact UInt32.le_refl _
      acknowledged := by
        have hack := h.acknowledged
        change x.pool.lastBatch ≤ sequence
        grind
      reported := fun s hs =>
        ⟨List.mem_append_left _ (h.reported s hs).1, (h.reported s hs).2⟩
      tracks :=
        { pending_eq := by
            change x.session.pending ++ [sequence] =
              (x.pool.submitted ++ [sequence]).filter (isOpen verdict floor x.pool.reported)
            rw [List.filter_append, List.filter_singleton, hopen, ← h.tracks.pending_eq]
            rfl
          clear := by
            intro s hs hrejected hle
            rcases List.mem_append.mp hs with hold | hsame
            · exact h.tracks.clear s hold hrejected hle
            · obtain rfl := List.mem_singleton.mp hsame
              grind
          chain := by
            have hack := h.acknowledged
            exact h.tracks.chain.submit (by grind) }
      blocked := by
        intro b rest hcons
        obtain ⟨s, hs, hrest⟩ := h.blocked b rest hcons
        exact ⟨s, List.mem_append_left _ hs, hrest⟩
      size := by
        change (x.session.pending ++ [sequence]).length ≤ 4096
        rw [List.length_append, List.length_singleton]
        exact hguard.2
      verdicts := by
        intro s hs
        rcases List.mem_append.mp hs with hold | hsame
        · exact h.verdicts s hold
        · obtain rfl := List.mem_singleton.mp hsame
          have hnone : verdictsFor s x.events = [] := by
            rw [verdictsFor, List.filterMap_eq_nil_iff]
            intro v hv
            obtain ⟨t, ht, hid⟩ := h.known v hv
            have hne : ¬ v.1 = (s.toNat : Int) := by
              rw [hid]
              intro heq
              exact hnew (UInt32.toNat_inj.mp (by exact_mod_cast heq) ▸ ht)
            rw [if_neg hne]
          rw [hopen]
          exact hnone
      known := fun v hv => by
        obtain ⟨s, hs, hid⟩ := h.known v hv
        exact ⟨s, List.mem_append_left _ hs, hid⟩ }

/-- Settlement after the pool's log has changed: `settle` returns, and the
events it adds complete the verdicts of the shares it takes off. -/
private theorem settled (h : Agrees verdict x floor) (session : Session κ) (pool : PoolLog)
    (events : List Json) (hphase : session.phase = 3) (hlastAck : session.lastAck = pool.lastBatch)
    (hlastSent : session.lastSent = x.session.lastSent)
    (hsubmitted : pool.submitted = x.pool.submitted)
    (hacknowledged : pool.lastBatch ≤ x.session.lastSent)
    (hreported : ∀ s ∈ pool.reported, s ∈ pool.submitted ∧ verdict s = false)
    (htracks : Tracks verdict pool floor session.batches session.pending)
    (hsize : session.pending.length ≤ 4096)
    (hverdicts : ∀ s ∈ pool.submitted,
      verdictsFor s events = if isOpen verdict floor pool.reported s then [] else [verdict s])
    (hknown : ∀ v ∈ events.filterMap verdictOf, ∃ s ∈ pool.submitted, v.1 = (s.toNat : Int)) :
    ∃ floor' out session', session.settled = .ok (out, session') ∧
      session'.channel = session.channel ∧
      Agrees verdict ⟨session', pool, events ++ out⟩ floor' := by
  have hnodup : pool.submitted.Nodup := hsubmitted ▸ h.nodup
  obtain ⟨floor', out, batches', pending', hsettle, htracks', hblocked, hfloor, hout, hids⟩ :=
    settle_spec hnodup session.batches htracks
  refine ⟨floor', out, { session with batches := batches', pending := pending' }, ?_, rfl, ?_⟩
  · rw [Session.settled, hsettle]
    rfl
  · exact
      { phase := hphase
        lastAck := hlastAck
        increasing := hsubmitted ▸ h.increasing
        sent := by
          intro s hs
          have hle := h.sent s (hsubmitted ▸ hs)
          exact hlastSent ▸ hle
        acknowledged := hlastSent ▸ hacknowledged
        reported := hreported
        tracks := htracks'
        blocked := hblocked
        size := by
          have hle : pending'.length ≤ session.pending.length := by
            rw [htracks'.pending_eq, htracks.pending_eq, ← List.countP_eq_length_filter,
              ← List.countP_eq_length_filter]
            apply List.countP_mono_left
            intro s _ hopen
            exact isOpen_of_le hfloor hopen
          exact hle.trans hsize
        verdicts := by
          intro s hs
          change verdictsFor s (events ++ out) = _
          rw [verdictsFor_append, hverdicts s hs, hout s hs]
          cases hlast : isOpen verdict floor' pool.reported s with
          | true =>
              have hfirst := isOpen_of_le hfloor hlast
              simp [hfirst]
          | false =>
              cases hfirst : isOpen verdict floor pool.reported s with
              | true =>
                  have haccepted := verdict_of_closed hfirst hlast
                  simp [haccepted]
              | false => simp
        known := by
          intro v hv
          change v ∈ (events ++ out).filterMap verdictOf at hv
          rw [List.filterMap_append, List.mem_append] at hv
          rcases hv with hold | hnew
          · exact hknown v hold
          · exact hids v hnew }

/-- Every verdict the pool may send next is taken without an exception and
keeps the agreement. -/
theorem take_verdict (h : Agrees verdict x floor) {message : Message} {pool : PoolLog}
    (hspoken : PoolSays verdict x.session.channel x.pool message pool)
    (hverdict : message.isVerdict = true) :
    ∃ floor' out session, x.session.apply lib message = .ok (out, session) ∧
      session.channel = x.session.channel ∧
      Agrees verdict ⟨session, pool, x.events ++ out⟩ floor' := by
  cases hspoken with
  | batch last count sum hlater hsubmitted haccepted hcount =>
      have hbetween : last ∈ acceptedBetween verdict x.pool.submitted x.pool.lastBatch last := by
        simp [acceptedBetween, hsubmitted, haccepted, hlater]
      have hpending : last ∈ x.session.pending := by
        have hfloor := h.tracks.chain.le
        have habove : floor < last := by grind
        rw [h.tracks.pending_eq, List.mem_filter]
        exact ⟨hsubmitted, by simp [isOpen, haccepted, habove]⟩
      have hsubset : (acceptedBetween verdict x.pool.submitted x.pool.lastBatch last).length ≤
          x.session.pending.length := by
        rw [h.tracks.pending_eq, acceptedBetween, ← List.countP_eq_length_filter,
          ← List.countP_eq_length_filter]
        apply List.countP_mono_left
        intro s _ hs
        simp only [Bool.and_eq_true, decide_eq_true_eq] at hs
        have hfloor := h.tracks.chain.le
        have habove : floor < s := by grind
        simp [isOpen, hs.1.1, habove]
      have hpositive : 0 < count := by
        rw [UInt32.lt_iff_toNat_lt, hcount]
        exact List.length_pos_of_mem hbetween
      have hlimit : count ≤ 4096 := by
        rw [UInt32.le_iff_toNat_le, hcount]
        exact hsubset.trans h.size
      have hguard : x.session.phase = 3 ∧ x.session.channel = x.session.channel ∧ count > 0 ∧
          count ≤ 4096 ∧ last > x.session.lastAck ∧ last ≤ x.session.lastSent ∧
          last ∈ x.session.pending :=
        ⟨h.phase, rfl, hpositive, hlimit, h.lastAck ▸ hlater, h.sent last hsubmitted, hpending⟩
      obtain ⟨floor', out, session, hsettled, hchannel, hagrees⟩ := h.settled
        { x.session with
          lastAck := last, batches := x.session.batches ++ [Batch.mk last count] }
        { x.pool with lastBatch := last } x.events
        h.phase rfl rfl rfl (h.sent last hsubmitted) h.reported
        { pending_eq := h.tracks.pending_eq
          clear := h.tracks.clear
          chain := h.tracks.chain.snoc hlater hcount }
        h.size h.verdicts h.known
      refine ⟨floor', out, session, ?_, hchannel, hagrees⟩
      change x.session.accepted x.session.channel last count = _
      rw [Session.accepted, if_pos hguard, hsettled]
  | reject s reason hsubmitted hrejected honce =>
      have hpending : s ∈ x.session.pending := by
        rw [h.tracks.pending_eq, List.mem_filter]
        exact ⟨hsubmitted, by simp [isOpen, hrejected, honce]⟩
      have hnodup : x.session.pending.Nodup := by
        rw [h.tracks.pending_eq]
        exact h.nodup.filter _
      have herased : x.session.pending.erase s =
          x.pool.submitted.filter (isOpen verdict floor (s :: x.pool.reported)) := by
        rw [hnodup.erase_eq_filter, h.tracks.pending_eq, List.filter_filter]
        apply List.filter_congr
        intro t _
        unfold isOpen
        cases haccepted : verdict t with
        | true =>
            have hne : t ≠ s := by
              rintro rfl
              rw [hrejected] at haccepted
              cases haccepted
            simp [hne]
        | false => by_cases heq : t = s <;> simp [heq]
      have hevent (t : UInt32) : verdictsFor t (x.events ++ [rejectedEvent s reason]) =
          verdictsFor t x.events ++ (if t = s then [false] else []) := by
        have hsingle : verdictsFor t [rejectedEvent s reason] = if t = s then [false] else [] := by
          rw [verdictsFor, List.filterMap_cons_some (verdictOf_rejected s reason)]
          by_cases heq : t = s
          · simp [heq]
          · have hne : ¬ (s.toNat : Int) = t.toNat := fun hid =>
              heq (UInt32.toNat_inj.mp (by exact_mod_cast hid.symm))
            simp [heq, hne]
        rw [verdictsFor_append, hsingle]
      obtain ⟨floor', out, session, hsettled, hchannel, hagrees⟩ := h.settled
        { x.session with pending := x.session.pending.erase s }
        { x.pool with reported := s :: x.pool.reported } (x.events ++ [rejectedEvent s reason])
        h.phase h.lastAck rfl rfl h.acknowledged
        (by
          intro t ht
          rcases List.mem_cons.mp ht with rfl | hold
          · exact ⟨hsubmitted, hrejected⟩
          · exact h.reported t hold)
        { pending_eq := herased
          clear := fun t ht hfalse hle => List.mem_cons_of_mem _ (h.tracks.clear t ht hfalse hle)
          chain := h.tracks.chain }
        ((List.length_erase_le).trans h.size)
        (by
          intro t ht
          rw [hevent, h.verdicts t ht]
          by_cases heq : t = s
          · subst heq
            simp [isOpen, hrejected, honce]
          · unfold isOpen
            cases hverdict : verdict t <;> simp [heq])
        (by
          intro v hv
          rw [List.filterMap_append, List.mem_append] at hv
          rcases hv with hold | hnew
          · exact h.known v hold
          · rw [List.filterMap_cons_some (verdictOf_rejected s reason)] at hnew
            obtain rfl := List.mem_singleton.mp hnew
            exact ⟨s, hsubmitted, rfl⟩)
      refine ⟨floor', rejectedEvent s reason :: out, session, ?_, hchannel, ?_⟩
      · change x.session.rejected x.session.channel s reason = _
        rw [Session.rejected, if_pos ⟨h.phase, rfl, hpending⟩, hsettled]
        rfl
      · rw [List.append_cons]
        exact hagrees
  | other message hother => rw [hother] at hverdict; cases hverdict

/-- Other messages that the session takes leave the agreement as it is. -/
theorem take_other (h : Agrees verdict x floor) {message : Message} {out : List Json}
    {session : Session κ} (hother : message.isVerdict = false)
    (happly : x.session.apply lib message = .ok (out, session)) :
    session.channel = x.session.channel ∧
      Agrees verdict ⟨session, x.pool, x.events ++ out⟩ floor := by
  obtain ⟨hshares, hopen⟩ := Session.apply_of_not_verdict hother happly
  obtain ⟨hphase, hchannel⟩ := hopen h.phase
  have hquiet := verdicts_of_not_verdict hother happly
  refine ⟨hchannel, ?_⟩
  exact
    { phase := hphase
      lastAck := hshares.lastAck.trans h.lastAck
      increasing := h.increasing
      sent := fun s hs => hshares.lastSent ▸ h.sent s hs
      acknowledged := hshares.lastSent ▸ h.acknowledged
      reported := h.reported
      tracks := by
        change Tracks verdict x.pool floor session.batches session.pending
        rw [hshares.batches, hshares.pending]
        exact h.tracks
      blocked := by
        change Blocked verdict x.pool session.batches
        rw [hshares.batches]
        exact h.blocked
      size := by
        change session.pending.length ≤ 4096
        rw [hshares.pending]
        exact h.size
      verdicts := by
        intro s hs
        change verdictsFor s (x.events ++ out) = _
        rw [verdictsFor_append, h.verdicts s hs, verdictsFor, hquiet]
        simp
      known := by
        intro v hv
        change v ∈ (x.events ++ out).filterMap verdictOf at hv
        rw [List.filterMap_append, hquiet, List.append_nil] at hv
        exact h.known v hv }

/-- A read that brings verdicts only is taken as a whole. -/
theorem take_verdicts (h : Agrees verdict x floor) {frames : List Frame} {messages : List Message}
    {pool : PoolLog}
    (hdecode : List.Forall₂ (fun frame message => decode frame = .ok message) frames messages)
    (hpool : PoolSaysAll verdict x.session.channel x.pool messages pool)
    (hverdicts : ∀ message ∈ messages, message.isVerdict = true) :
    ∃ out session, x.session.receiveFrames lib frames = .ok (out, session) := by
  induction hdecode generalizing x floor with
  | nil => exact ⟨[], x.session, rfl⟩
  | cons hfirst hrest ih =>
      cases hpool with
      | cons hspoken hmore =>
          obtain ⟨floor', out, session, happly, hchannel, hagrees⟩ :=
            h.take_verdict hspoken (hverdicts _ (List.mem_cons_self ..))
          obtain ⟨later, last, hlater⟩ := ih hagrees (hchannel ▸ hmore)
            fun message hmem => hverdicts message (List.mem_cons_of_mem _ hmem)
          have hhandle : x.session.handle lib _ = .ok (out ++ [promptEvent], session) :=
            Loops.bind_eq_ok.mpr ⟨(out, session), happly, rfl⟩
          refine ⟨(out ++ [promptEvent]) ++ later, last, ?_⟩
          rw [Session.receiveFrames_cons _ hfirst, hhandle]
          exact Loops.bind_eq_ok.mpr
            ⟨(out ++ [promptEvent], session), rfl,
              Loops.bind_eq_ok.mpr ⟨(later, last), hlater, rfl⟩⟩

theorem take_message (h : Agrees verdict x floor) {message : Message} {pool : PoolLog}
    {out : List Json} {session : Session κ}
    (hspoken : PoolSays verdict x.session.channel x.pool message pool)
    (happly : x.session.apply lib message = .ok (out, session)) :
    ∃ floor', session.channel = x.session.channel ∧
      Agrees verdict ⟨session, pool, x.events ++ out⟩ floor' := by
  cases hverdict : message.isVerdict with
  | true =>
      obtain ⟨floor', out', session', happly', hchannel, hagrees⟩ := h.take_verdict hspoken hverdict
      rw [happly] at happly'
      cases happly'
      exact ⟨floor', hchannel, hagrees⟩
  | false =>
      cases hspoken with
      | batch last count sum hlater hsubmitted haccepted hcount => cases hverdict
      | reject s reason hsubmitted hrejected honce => cases hverdict
      | other message hother =>
          obtain ⟨hchannel, hagrees⟩ := h.take_other hother happly
          exact ⟨floor, hchannel, hagrees⟩

/-- Every read that is taken keeps the agreement. -/
theorem take_frames (h : Agrees verdict x floor) {frames : List Frame} {messages : List Message}
    {pool : PoolLog} {out : List Json} {session : Session κ}
    (hdecode : List.Forall₂ (fun frame message => decode frame = .ok message) frames messages)
    (hpool : PoolSaysAll verdict x.session.channel x.pool messages pool)
    (hreceive : x.session.receiveFrames lib frames = .ok (out, session)) :
    ∃ floor', Agrees verdict ⟨session, pool, x.events ++ out⟩ floor' := by
  induction hdecode generalizing x floor out with
  | nil =>
      cases hpool
      obtain ⟨rfl, rfl⟩ := Prod.mk.inj (Loops.pure_eq_ok.mp hreceive)
      refine ⟨floor, ?_⟩
      rw [List.append_nil]
      exact h
  | cons hfirst hrest ih =>
      cases hpool with
      | cons hspoken hmore =>
          rw [Session.receiveFrames_cons _ hfirst] at hreceive
          obtain ⟨⟨events, next⟩, hhandle, hreceive⟩ := Loops.bind_eq_ok.mp hreceive
          obtain ⟨⟨later, last⟩, hlater, hreceive⟩ := Loops.bind_eq_ok.mp hreceive
          obtain ⟨rfl, rfl⟩ := Prod.mk.inj (Loops.pure_eq_ok.mp hreceive)
          obtain ⟨emitted, happly, rfl⟩ := Session.handle_ok hhandle
          obtain ⟨floor', hchannel, hagrees⟩ := h.take_message hspoken happly
          obtain ⟨floor'', hlast⟩ := ih (hagrees.prompt) (hchannel ▸ hmore) hlater
          refine ⟨floor'', ?_⟩
          rw [← List.append_assoc, ← List.append_assoc]
          exact hlast

/-- The agreement holds throughout every exchange. -/
theorem of_run {start : Session κ} (hopen : start.Opened)
    (hrun : Exchange.Run lib verdict start x) : ∃ floor, Agrees verdict x floor := by
  induction hrun with
  | refl => exact ⟨0, Agrees.initial hopen⟩
  | tail _ hstep ih =>
      obtain ⟨floor, h⟩ := ih
      cases hstep with
      | submit j nonce sequence session hsubmit => exact ⟨floor, h.submit hsubmit⟩
      | deliver bytes frames noise messages pool out session hnoise hdecode hpool hreceive =>
          rw [Session.receive_of_noise (by rw [h.phase]; decide) hnoise] at hreceive
          exact (h.noise noise).take_frames hdecode hpool hreceive

end Agrees

/-- Against a pool that keeps its word, in every interleaving of submissions,
batches and delayed rejections: no verdict makes the session throw, no event
contradicts the pool, and once every rejection has arrived the shares up to the
last batch have received exactly their verdict while later accepted ones are
still pending. -/
theorem settlement_agrees {lib : Foreign κ} {start : Session κ} {x : Exchange κ}
    (hopen : start.Opened) (hrun : Exchange.Run lib verdict start x) :
    (∀ bytes frames noise messages pool,
      x.session.noise.receive lib.cipher bytes = .ok (frames, noise) →
      List.Forall₂ (fun frame message => decode frame = .ok message) frames messages →
      PoolSaysAll verdict x.session.channel x.pool messages pool →
      (∀ message ∈ messages, message.isVerdict = true) →
        ∃ out session, x.session.receive lib bytes = .ok (out, session)) ∧
    (∀ id accepted, (id, accepted) ∈ x.events.filterMap verdictOf →
      ∃ s ∈ x.pool.submitted, id = (s.toNat : Int) ∧ accepted = verdict s) ∧
    ((∀ s ∈ x.pool.submitted, verdict s = false → s ∈ x.pool.reported) →
      ∀ s ∈ x.pool.submitted,
        (s ≤ x.pool.lastBatch → verdictsFor s x.events = [verdict s] ∧ s ∉ x.session.pending) ∧
        (x.pool.lastBatch < s → verdict s = true →
          verdictsFor s x.events = [] ∧ s ∈ x.session.pending)) := by
  obtain ⟨floor, h⟩ := Agrees.of_run hopen hrun
  refine ⟨?_, ?_, ?_⟩
  · intro bytes frames noise messages pool hnoise hdecode hpool hverdicts
    rw [Session.receive_of_noise (by rw [h.phase]; decide) hnoise]
    exact (h.noise noise).take_verdicts hdecode hpool hverdicts
  · intro id accepted hmem
    obtain ⟨s, hs, rfl⟩ := h.known _ hmem
    have hfor : accepted ∈ verdictsFor s x.events :=
      List.mem_filterMap.mpr ⟨_, hmem, if_pos rfl⟩
    rw [h.verdicts s hs] at hfor
    split at hfor
    · cases hfor
    · exact ⟨s, hs, rfl, List.mem_singleton.mp hfor⟩
  · intro hall s hs
    have hfloor : floor = x.pool.lastBatch := by
      -- With no rejection in flight nothing blocks, so no batch is queued.
      have hempty : x.session.batches = [] := by
        cases hbatches : x.session.batches with
        | nil => rfl
        | cons b rest =>
            obtain ⟨t, ht, hrejected, hunreported, -⟩ := h.blocked b rest hbatches
            exact absurd (hall t ht hrejected) hunreported
      have hchain := h.tracks.chain
      rw [hempty] at hchain
      exact hchain
    have hverdicts := h.verdicts s hs
    have hpending : s ∈ x.session.pending ↔ isOpen verdict floor x.pool.reported s = true := by
      rw [h.tracks.pending_eq, List.mem_filter]
      exact ⟨fun hmem => hmem.2, fun hopened => ⟨hs, hopened⟩⟩
    rw [← hfloor, hpending]
    refine ⟨?_, ?_⟩
    · intro hle
      have hclosed : isOpen verdict floor x.pool.reported s = false := by
        unfold isOpen
        cases hverdict : verdict s with
        | true =>
            have hnot : ¬ floor < s := by grind
            simp [hnot]
        | false => simp [hall s hs hverdict]
      rw [hverdicts, hclosed]
      simp
    · intro hlt haccepted
      have hopened : isOpen verdict floor x.pool.reported s = true := by
        simp [isOpen, haccepted, hlt]
      rw [hverdicts, hopened]
      simp

def sampleJob : Job :=
  { work := ⟨Vector.replicate 80 0, Vector.replicate 32 255⟩, generation := 1, sv2 := true
    channel := 5, wireJob := 7 }

/-- Channel 5 is open and job 7 is active. -/
def sampleSession : Session Unit :=
  { noise := { ready := true, framing := { state := () } }, written := [], host := [], user := []
    port := 0, rate := 0, phase := 3, channel := 5, generation := 1
    jobs := (∅ : AList fun _ : UInt32 => Stored).insert 7
      { wire := ⟨5, 7, some 0, 0, Vector.replicate 32 0⟩, job := sampleJob, future := false } }

/-- On channel 5, a batch of two shares whose last sequence is 12. -/
def sampleFrame : Frame :=
  ⟨0x8000, 0x1c, [5, 0, 0, 0, 12, 0, 0, 0, 2, 0, 0, 0, 0, 0, 0, 0, 0, 0, 0, 0]⟩

/-- Share 11 is rejected, for a reason of one letter. -/
def sampleRejection : Frame := ⟨0x8000, 0x1d, [5, 0, 0, 0, 11, 0, 0, 0, 1, 120]⟩

def sampleBatch : Bytes :=
  [0, 0x80, 0x1c, 20, 0, 0] ++ List.replicate 16 0 ++ sampleFrame.payload ++ List.replicate 16 0

def sampleLate : Bytes :=
  [0, 0x80, 0x1d, 10, 0, 0] ++ List.replicate 16 0 ++ sampleRejection.payload ++ List.replicate 16 0

/-- Of three shares the pool accepts the first and the last in one batch, and only
then rejects the one between. -/
theorem settlement_agrees_late :
    ∃ x, Exchange.Run sampleForeign (fun s => s != 11) sampleSession x ∧
      verdictsFor 10 x.events = [true] ∧ verdictsFor 11 x.events = [false] ∧
      verdictsFor 12 x.events = [true] ∧ ∀ s ∈ x.pool.submitted, s ∉ x.session.pending := by
  have hread : ∃ a b c, sampleSession.submit sampleForeign sampleJob 0 10 = .ok a ∧
      a.submit sampleForeign sampleJob 1 11 = .ok b ∧ b.submit sampleForeign sampleJob 2 12 = .ok c ∧
      (c.phase = 3 ∧ c.channel = 5 ∧ c.noise = sampleSession.noise) ∧ ∃ out d,
        { c with noise := sampleSession.noise }.receiveFrames sampleForeign [sampleFrame] =
          .ok (out, d) ∧
        (d.phase = 3 ∧ d.channel = 5 ∧ d.noise = sampleSession.noise) ∧ ∃ late e,
          { d with noise := sampleSession.noise }.receiveFrames sampleForeign [sampleRejection] =
            .ok (late, e) :=
    ⟨_, _, _, rfl, rfl, rfl, ⟨rfl, rfl, rfl⟩, _, _, rfl, ⟨rfl, rfl, rfl⟩, _, _, rfl⟩
  obtain ⟨a, b, c, hfirst, hsecond, hthird, ⟨hphase, hchannel, hnoise⟩, out, d, hbatch,
    ⟨hphase', hchannel', hnoise'⟩, late, e, hlate⟩ := hread
  have hbatchRead : c.noise.receive sampleForeign.cipher sampleBatch =
      .ok ([sampleFrame], sampleSession.noise) := by
    rw [hnoise]
    rfl
  have hlateRead : d.noise.receive sampleForeign.cipher sampleLate =
      .ok ([sampleRejection], sampleSession.noise) := by
    rw [hnoise']
    rfl
  let submitted : PoolLog := { submitted := [10, 11, 12] }
  have hbatchSaid : PoolSaysAll (fun s => s != 11) c.channel submitted [.accepted 5 12 2 0]
      { submitted with lastBatch := 12 } := by
    rw [hchannel]
    exact .cons (.batch submitted 12 2 0 (by decide) (by decide) rfl (by decide)) (.nil _)
  have hlateSaid : PoolSaysAll (fun s => s != 11) d.channel { submitted with lastBatch := 12 }
      [.rejected 5 11 ['x']] { submitted with lastBatch := 12, reported := [11] } := by
    rw [hchannel']
    exact .cons (.reject _ 11 ['x'] (by decide) rfl (by decide)) (.nil _)
  have hsubmitted : Exchange.Run sampleForeign (fun s => s != 11) sampleSession ⟨c, submitted, []⟩ :=
    ((Relation.ReflTransGen.single (Exchange.Step.submit _ sampleJob 0 10 a hfirst)).tail
      (Exchange.Step.submit _ sampleJob 1 11 b hsecond)).tail
      (Exchange.Step.submit _ sampleJob 2 12 c hthird)
  have hrun := (hsubmitted.tail (Exchange.Step.deliver _ sampleBatch _ _ _ _ out d hbatchRead
    (.cons rfl .nil) hbatchSaid
    ((Session.receive_of_noise (by rw [hphase]; decide) hbatchRead).trans hbatch))).tail
    (Exchange.Step.deliver _ sampleLate _ _ _ _ late e hlateRead (.cons rfl .nil) hlateSaid
      ((Session.receive_of_noise (by rw [hphase']; decide) hlateRead).trans hlate))
  have hreported : ∀ s ∈ ([10, 11, 12] : List UInt32), (s != 11) = false →
      s ∈ ([11] : List UInt32) := by simp
  have hcovered : ∀ s ∈ ([10, 11, 12] : List UInt32), s ≤ 12 := by simp
  have hsettled (s : UInt32) (hs : s ∈ [10, 11, 12]) :=
    ((settlement_agrees ⟨rfl, rfl, rfl, rfl⟩ hrun).2.2 hreported s hs).1 (hcovered s hs)
  exact ⟨_, hrun, (hsettled 10 (by decide)).1, (hsettled 11 (by decide)).1,
    (hsettled 12 (by decide)).1, fun s hs => (hsettled s hs).2⟩

end Supryolo.Sv2
