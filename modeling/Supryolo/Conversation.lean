import Supryolo.Conduct
import Supryolo.Framing
import Supryolo.Requests

/-!
The miner's side of an SV2 connection as the pool hears it. Whatever a session
has decrypted in between, its bytes are a first message and the frames of its
requests in the order in which it made them, so a pool that reads them in pieces
of its own reads those requests and never anything else.
-/

namespace Supryolo.Sv2

open Histories Incremental Loops

variable {κ : Type} {c : Cipher κ} {follows : κ → κ → Prop}

/-- Also relied on: what the miner decrypts does not get it out of step with the
pool that decrypts it. -/
structure Duplex (c : Cipher κ) (follows : κ → κ → Prop) : Prop extends InOrder c follows where
  deaf : ∀ pool miner b p miner', follows pool miner →
    c.transform miner true b = some (p, miner') → follows pool miner'

theorem paddingCipher_duplex : Duplex paddingCipher fun _ _ => True where
  toInOrder := Noise.paddingCipher_inOrder
  deaf _ _ _ _ _ _ _ := trivial

namespace Noise

/-- A frame that has been encoded is heard as that frame. -/
theorem encode_heard (hc : InOrder c follows) {n n' : Noise κ} {f : Frame} {bytes : Bytes} {pool : κ}
    (h : n.encode c f = .ok (bytes, n')) (hfollows : follows pool n.framing.state) :
    ∃ pool', (frameDecoder c).run ⟨pool, none, 0⟩ bytes = .ok ([f], ⟨pool', none, 0⟩, []) ∧
      follows pool' n'.framing.state := by
  obtain ⟨hsize, h⟩ := guard_eq_ok.mp h
  change (framePieces f).foldlM (encrypt c) ([], n) = .ok (bytes, n') at h
  have hup : n.Up := by
    rw [framePieces, List.foldlM_cons] at h
    obtain ⟨⟨out, next⟩, hfirst, -⟩ := bind_eq_ok.mp h
    exact (encrypt_ok.mp hfirst).1
  have hpieces : ∀ b ∈ framePieces f, b.length ≤ chunk := by
    intro b hb
    rcases List.mem_cons.mp hb with rfl | hb
    · exact (by decide : 6 ≤ chunk)
    · exact Chunks.length_le_of_mem_toChunks (by decide) hb
  obtain ⟨pieces, pool', state, hsealed, hnext⟩ := sealed_exists hc hfollows hpieces
  rw [encrypt_sealed hup hsealed, List.nil_append] at h
  obtain ⟨rfl, rfl⟩ := Prod.mk.inj (Except.ok.inj h)
  exact ⟨pool', run_frame (Nat.le_of_not_lt hsize) hsealed, hnext⟩

/-- Decryption leaves the pool in step. -/
theorem runs_deaf (hc : Duplex c follows) {start last : Framing κ} {input rest : Bytes}
    {frames : List Frame} {pool : κ}
    (h : Decoder.Runs (frameDecoder c) start input frames last rest)
    (hfollows : follows pool start.state) : follows pool last.state := by
  induction h with
  | wait hstep => exact hfollows
  | take hstep later ih =>
      obtain ⟨-, -, p, hopen, -⟩ := step_take_iff.mp hstep
      exact ih (hc.deaf _ _ _ _ _ hfollows hopen)

theorem receive_deaf (hc : Duplex c follows) {n n' : Noise κ} {b : Bytes} {frames : List Frame}
    {pool : κ} (h : n.receive c b = .ok (frames, n')) (hfollows : follows pool n.framing.state) :
    follows pool n'.framing.state := by
  obtain ⟨-, h⟩ := guard_eq_ok.mp h
  obtain ⟨-, h⟩ := guard_eq_ok.mp h
  obtain ⟨⟨out, framing, rest⟩, hrun, h⟩ := bind_eq_ok.mp h
  obtain ⟨-, h⟩ := guard_eq_ok.mp h
  obtain ⟨rfl, rfl⟩ := Prod.mk.inj (pure_eq_ok.mp h)
  exact runs_deaf hc (Decoder.run_iff.mp hrun) hfollows

end Noise

namespace Terms

/-- The terms are byte strings. -/
structure Bytewise (t : Terms) : Prop where
  host : ∀ c ∈ t.host, c.toNat < 256
  user : ∀ c ∈ t.user, c.toNat < 256

def setupRequest (t : Terms) : Request := Sv2.setupRequest t.host t.port "supryolo/0.2.1".toList

def openRequest (t : Terms) : Request :=
  .openStandard 1 t.user t.rate (Vector.replicate 32 255)

/-- What a session has asked for when it comes to a phase. -/
def greeting (t : Terms) : Nat → List Request
  | 0 => []
  | 1 => [t.setupRequest]
  | _ => [t.setupRequest, t.openRequest]

theorem setupRequest_wellFormed {t : Terms} (ht : t.Bytewise) (h : t.host.length ≤ 255) :
    t.setupRequest.WellFormed :=
  ⟨⟨h, ht.host⟩, ⟨by simp, by simp⟩, ⟨by simp, by simp⟩, ⟨by simp, by simp⟩, ⟨by simp, by simp⟩⟩

theorem openRequest_wellFormed {t : Terms} (ht : t.Bytewise) (h : t.user.length ≤ 255) :
    t.openRequest.WellFormed :=
  ⟨⟨h, ht.user⟩, by decide⟩

end Terms

theorem mapM_readRequest {requests : List Request} (h : ∀ r ∈ requests, r.WellFormed) :
    (requests.map Request.frame).mapM readRequest = .ok requests := by
  induction requests with
  | nil => rfl
  | cons r requests ih =>
      rw [List.map_cons, List.mapM_cons, readRequest_frame (h r List.mem_cons_self), ok_bind,
        ih fun r hr => h r (List.mem_cons_of_mem _ hr)]
      rfl

namespace Session

variable {lib : Foreign κ} {s s' : Session κ} {t : Terms} {pool : κ} {first : Bytes}
  {requests submitted : List Request}

/-- The bytes after the first message are the frames of these requests, and a
pool that was in step has read them. -/
structure Heard (c : Cipher κ) (follows : κ → κ → Prop) (pool : κ) (first : Bytes) (s : Session κ)
    (requests : List Request) : Prop where
  legal : ∀ r ∈ requests, r.WellFormed
  read : ∃ bytes pool', s.written = first ++ bytes ∧
    (frameDecoder c).run ⟨pool, none, 0⟩ bytes =
      .ok (requests.map Request.frame, ⟨pool', none, 0⟩, []) ∧
    follows pool' s.noise.framing.state

theorem Heard.same (h : Heard c follows pool first s requests) (hwritten : s'.written = s.written)
    (hnoise : s'.noise = s.noise) : Heard c follows pool first s' requests := by
  refine ⟨h.legal, ?_⟩
  rw [hwritten, hnoise]
  exact h.read

theorem Heard.send (hc : InOrder lib.cipher follows) {r : Request} {f : Frame}
    (h : Heard lib.cipher follows pool first s requests) (hlegal : r.WellFormed)
    (hf : f = r.frame) (hsend : s.send lib f = .ok s') :
    Heard lib.cipher follows pool first s' (requests ++ [r]) := by
  subst hf
  obtain ⟨bytes, pool', hwritten, hrun, hfollows⟩ := h.read
  obtain ⟨⟨more, noise⟩, hencode, hsend⟩ := bind_eq_ok.mp hsend
  obtain rfl := pure_eq_ok.mp hsend
  obtain ⟨pool'', hmore, hnext⟩ := Noise.encode_heard hc hencode hfollows
  refine ⟨?_, bytes ++ more, pool'', ?_, ?_, hnext⟩
  · intro r' hr'
    rcases List.mem_append.mp hr' with hr' | hr'
    · exact h.legal r' hr'
    · rw [List.mem_singleton.mp hr']
      exact hlegal
  · rw [hwritten, List.append_assoc]
  · rw [Decoder.run_append hrun, List.nil_append, hmore, List.map_append]
    rfl

theorem Heard.listen (hc : Duplex lib.cipher follows) {bytes : Bytes} {frames : List Frame}
    {noise : Noise κ} (h : Heard lib.cipher follows pool first s requests)
    (hreceive : s.noise.receive lib.cipher bytes = .ok (frames, noise)) :
    Heard lib.cipher follows pool first { s with noise := noise } requests := by
  obtain ⟨written, pool', hwritten, hrun, hfollows⟩ := h.read
  exact ⟨h.legal, written, pool', hwritten, hrun, Noise.receive_deaf hc hreceive hfollows⟩

/-- What a session has said: nothing but the first message before the pool has
answered it, after that the greeting of its phase and the shares it has
submitted. -/
structure Spoken (c : Cipher κ) (follows : κ → κ → Prop) (pool : Bytes → κ) (initial : κ)
    (first : Bytes) (t : Terms) (s : Session κ) (submitted : List Request) : Prop where
  terms : (⟨s.host, s.port, s.user, s.rate⟩ : Terms) = t
  phase_le : s.phase ≤ 3
  closed : s.phase ≠ 3 → submitted = []
  silent : s.phase = 0 → s.written = first ∧ s.noise.framing.state = initial
  heard : s.phase ≠ 0 → ∃ answer,
    Heard c follows (pool answer) first s (t.greeting s.phase ++ submitted)

theorem spoken_start (c : Cipher κ) (follows : κ → κ → Prop) (pool : Bytes → κ) (initial : κ)
    (first : Bytes) (t : Terms) :
    (start initial first t.host t.port t.user t.rate).Spoken c follows pool initial first t [] where
  terms := rfl
  phase_le := Nat.zero_le 3
  closed _ := rfl
  silent _ := ⟨rfl, rfl⟩
  heard hopen := absurd rfl hopen

/-- While a frame is handled the session has been answered. -/
structure Speaking (c : Cipher κ) (follows : κ → κ → Prop) (pool : κ) (first : Bytes) (t : Terms)
    (s : Session κ) (submitted : List Request) : Prop where
  terms : (⟨s.host, s.port, s.user, s.rate⟩ : Terms) = t
  phase : 0 < s.phase ∧ s.phase ≤ 3
  closed : s.phase ≠ 3 → submitted = []
  heard : Heard c follows pool first s (t.greeting s.phase ++ submitted)

theorem Speaking.apply (hc : Duplex lib.cipher follows) (ht : t.Bytewise) {m : Message}
    {out : List Json} (h : s.Speaking lib.cipher follows pool first t submitted)
    (happly : s.apply lib m = .ok (out, s')) :
    s'.Speaking lib.cipher follows pool first t submitted := by
  have hquiet {next : Session κ} (hterms : (⟨next.host, next.port, next.user, next.rate⟩ : Terms) = t)
      (hphase : next.phase = s.phase) (hwritten : next.written = s.written)
      (hnoise : next.noise = s.noise) : next.Speaking lib.cipher follows pool first t submitted := by
    refine ⟨hterms, hphase ▸ h.phase, hphase ▸ h.closed, ?_⟩
    rw [hphase]
    exact h.heard.same hwritten hnoise
  cases m with
  | setupSuccess version flags =>
      obtain ⟨greeted, hgreeted, happly⟩ := bind_eq_ok.mp happly
      obtain ⟨-, rfl⟩ := Prod.mk.inj (pure_eq_ok.mp happly)
      obtain ⟨hguard, hgreeted⟩ := guard_eq_ok.mp hgreeted
      obtain ⟨frame, hframe, hgreeted⟩ := bind_eq_ok.mp hgreeted
      obtain ⟨sent, hsend, hgreeted⟩ := bind_eq_ok.mp hgreeted
      obtain rfl := pure_eq_ok.mp hgreeted
      simp only [not_or, ne_eq, not_not] at hguard
      have hone : s.phase = 1 := hguard.1
      obtain rfl := h.closed (by omega)
      obtain ⟨hlength, hframe⟩ := openStandard_frame hframe
      obtain rfl := h.terms
      have hheard := h.heard.send hc.toInOrder (Terms.openRequest_wellFormed ht hlength) hframe hsend
      obtain ⟨noise, written, rfl⟩ := send_ok hsend
      rw [hone] at hheard
      exact ⟨rfl, ⟨Nat.succ_pos 1, Nat.le_succ 2⟩, fun _ => rfl, hheard.same rfl rfl⟩
  | openSuccess request channel target extranonce group =>
      cases applied_of_ok happly with
      | opened _ _ _ _ _ htwo hlength =>
          have hheard := h.heard
          rw [htwo] at hheard
          exact ⟨h.terms, ⟨Nat.succ_pos 2, le_refl 3⟩, fun hclosed => absurd rfl hclosed,
            hheard.same rfl rfl⟩
  | _ =>
      cases applied_of_ok happly
      all_goals exact hquiet h.terms rfl rfl rfl

theorem Speaking.receiveFrames (hc : Duplex lib.cipher follows) (ht : t.Bytewise)
    {frames : List Frame} {out : List Json}
    (h : s.Speaking lib.cipher follows pool first t submitted)
    (hreceive : s.receiveFrames lib frames = .ok (out, s')) :
    s'.Speaking lib.cipher follows pool first t submitted :=
  receiveFrames_induction (motive := fun _ next => next.Speaking lib.cipher follows pool first t submitted)
    hreceive h fun _ _ _ _ _ hbefore happly => hbefore.apply hc ht happly

theorem Speaking.receiveReady (hc : Duplex lib.cipher follows) (ht : t.Bytewise) {bytes : Bytes}
    {out : List Json} (h : s.Speaking lib.cipher follows pool first t submitted)
    (hreceive : s.receiveReady lib bytes = .ok (out, s')) :
    s'.Speaking lib.cipher follows pool first t submitted := by
  obtain ⟨⟨frames, noise⟩, hframes, hreceive⟩ := bind_eq_ok.mp hreceive
  refine Speaking.receiveFrames hc ht ?_ hreceive
  exact ⟨h.terms, h.phase, h.closed, h.heard.listen hc hframes⟩

theorem Speaking.spoken {initial : κ} {pool : Bytes → κ} {answer : Bytes}
    (h : s.Speaking c follows (pool answer) first t submitted) :
    s.Spoken c follows pool initial first t submitted where
  terms := h.terms
  phase_le := h.phase.2
  closed := h.closed
  silent hzero := absurd hzero (Nat.ne_of_gt h.phase.1)
  heard _ := ⟨answer, h.heard⟩

theorem Spoken.speaking {initial : κ} {pool : Bytes → κ}
    (h : s.Spoken c follows pool initial first t submitted) (hphase : s.phase ≠ 0) :
    ∃ answer, s.Speaking c follows (pool answer) first t submitted := by
  obtain ⟨answer, hheard⟩ := h.heard hphase
  exact ⟨answer, h.terms, ⟨Nat.pos_of_ne_zero hphase, h.phase_le⟩, h.closed, hheard⟩

/-- What is relied on of the handshake: a pool whose answer is accepted is in
step with the miner. -/
def Answers (c : Cipher κ) (follows : κ → κ → Prop) (pool : Bytes → κ) (initial : κ) : Prop :=
  ∀ answer state, c.finish initial answer = some state → follows (pool answer) state

theorem finish_ok {n n' : Noise κ} {b : Bytes} (h : n.finish c b = .ok n') :
    c.finish n.framing.state b = some n'.framing.state := by
  obtain ⟨-, h⟩ := guard_eq_ok.mp h
  cases hfinish : c.finish n.framing.state b with
  | none => rw [hfinish] at h; cases h
  | some state =>
      rw [hfinish] at h
      obtain rfl := pure_eq_ok.mp h
      rfl

/-- The handshake has been answered, and the setup goes out. -/
theorem Spoken.answered {initial : κ} {pool : Bytes → κ} (hc : InOrder lib.cipher follows)
    (hpool : Answers lib.cipher follows pool initial) (ht : t.Bytewise) {answer : Bytes}
    {noise : Noise κ} {frame : Frame} {ready : Session κ}
    (h : s.Spoken lib.cipher follows pool initial first t submitted) (hzero : s.phase = 0)
    (hfinish : s.noise.finish lib.cipher answer = .ok noise)
    (hframe : setup s.host s.port "supryolo/0.2.1".toList = .ok frame)
    (hsend : { s with noise := noise, handshake := [], phase := 1 }.send lib frame = .ok ready) :
    ready.Speaking lib.cipher follows (pool answer) first t submitted := by
  obtain ⟨hwritten, hstate⟩ := h.silent hzero
  obtain rfl := h.closed (by omega)
  obtain ⟨hlength, -, hframe⟩ := setup_frame hframe
  have hterms := h.terms
  subst hterms
  let answered : Session κ := { s with noise := noise, handshake := [], phase := 1 }
  have hnothing : Heard lib.cipher follows (pool answer) first answered [] := by
    refine ⟨by simp, [], _, ?_, run_idle _, hpool _ _ ?_⟩
    · rw [List.append_nil]
      exact hwritten
    · exact hstate ▸ finish_ok hfinish
  have hheard := hnothing.send hc (Terms.setupRequest_wellFormed ht hlength) hframe hsend
  obtain ⟨noise', written, rfl⟩ := send_ok hsend
  exact ⟨rfl, ⟨Nat.succ_pos 0, Nat.le_add_left 1 2⟩, fun _ => rfl, hheard⟩

theorem Spoken.receive {initial : κ} {pool : Bytes → κ} (hc : Duplex lib.cipher follows)
    (hpool : Answers lib.cipher follows pool initial) (ht : t.Bytewise) {bytes : Bytes}
    {out : List Json} (h : s.Spoken lib.cipher follows pool initial first t submitted)
    (hreceive : s.receive lib bytes = .ok (out, s')) :
    s'.Spoken lib.cipher follows pool initial first t submitted := by
  unfold Session.receive at hreceive
  split at hreceive
  · rename_i hzero
    obtain ⟨-, hreceive⟩ := guard_eq_ok.mp hreceive
    split at hreceive
    · obtain ⟨-, rfl⟩ := Prod.mk.inj (pure_eq_ok.mp hreceive)
      exact ⟨h.terms, h.phase_le, h.closed, h.silent, fun hopen => absurd hzero hopen⟩
    · obtain ⟨noise, hfinish, hreceive⟩ := bind_eq_ok.mp hreceive
      obtain ⟨frame, hframe, hreceive⟩ := bind_eq_ok.mp hreceive
      obtain ⟨ready, hsend, hreceive⟩ := bind_eq_ok.mp hreceive
      have hspeaking := h.answered hc.toInOrder hpool ht hzero hfinish hframe hsend
      exact (hspeaking.receiveReady hc ht hreceive).spoken
  · rename_i hopen
    obtain ⟨answer, hspeaking⟩ := h.speaking hopen
    exact (hspeaking.receiveReady hc ht hreceive).spoken

/-- Messages add to what is written, and the phase only moves on. -/
theorem apply_grows {m : Message} {out : List Json} (h : s.apply lib m = .ok (out, s')) :
    s.phase ≤ s'.phase ∧ s.written <+: s'.written := by
  cases m with
  | setupSuccess version flags =>
      obtain ⟨greeted, hgreeted, h⟩ := bind_eq_ok.mp h
      obtain ⟨-, rfl⟩ := Prod.mk.inj (pure_eq_ok.mp h)
      obtain ⟨hguard, hgreeted⟩ := guard_eq_ok.mp hgreeted
      obtain ⟨frame, -, hgreeted⟩ := bind_eq_ok.mp hgreeted
      obtain ⟨sent, hsend, hgreeted⟩ := bind_eq_ok.mp hgreeted
      obtain rfl := pure_eq_ok.mp hgreeted
      obtain ⟨⟨bytes, noise⟩, -, hsend⟩ := bind_eq_ok.mp hsend
      obtain rfl := pure_eq_ok.mp hsend
      simp only [not_or, ne_eq, not_not] at hguard
      exact ⟨hguard.1.le.trans (Nat.le_succ 1), List.prefix_append _ _⟩
  | openSuccess request channel target extranonce group =>
      cases applied_of_ok h with
      | opened _ _ _ _ _ htwo => exact ⟨htwo.le.trans (Nat.le_succ 2), List.prefix_refl _⟩
  | _ =>
      cases applied_of_ok h
      all_goals exact ⟨le_refl _, List.prefix_refl _⟩

/-- What holds of a session and is kept by its messages holds when a read is
broken off. -/
theorem handled_induction {motive : Session κ → Prop} (hstart : motive s)
    (hstep : ∀ before m out after, motive before → before.apply lib m = .ok (out, after) →
      motive after) (frames : List Frame) : motive (s.handled lib frames) := by
  induction frames generalizing s with
  | nil => exact hstart
  | cons frame rest ih =>
      rw [handled]
      cases hhandle : decode frame >>= s.handle lib with
      | error e => exact hstart
      | ok result =>
          obtain ⟨out, next⟩ := result
          obtain ⟨message, -, hhandle⟩ := bind_eq_ok.mp hhandle
          obtain ⟨⟨events, after⟩, happly, hhandle⟩ := bind_eq_ok.mp hhandle
          obtain ⟨-, rfl⟩ := Prod.mk.inj (pure_eq_ok.mp hhandle)
          exact ih (hstep _ _ _ _ hstart happly)

theorem interruptedReady_grows (bytes : Bytes) :
    s.phase ≤ (s.interruptedReady lib bytes).phase ∧
      s.written <+: (s.interruptedReady lib bytes).written := by
  unfold interruptedReady
  cases s.noise.receive lib.cipher bytes with
  | error e => exact ⟨le_refl _, List.prefix_refl _⟩
  | ok result =>
      obtain ⟨frames, noise⟩ := result
      refine handled_induction (s := { s with noise := noise })
        (motive := fun next => s.phase ≤ next.phase ∧ s.written <+: next.written)
        ⟨le_refl _, List.prefix_refl _⟩ ?_ frames
      intro before m out after hbefore happly
      obtain ⟨hphase, hwritten⟩ := apply_grows happly
      exact ⟨hbefore.1.trans hphase, hbefore.2.trans hwritten⟩

/-- A read that throws has written nothing or added to what was written. -/
theorem interrupted_grows (bytes : Bytes) :
    s.phase ≤ (s.interrupted lib bytes).phase ∧ s.written <+: (s.interrupted lib bytes).written := by
  unfold interrupted
  split
  · rename_i hzero
    dsimp only
    split
    · exact ⟨le_refl _, List.prefix_refl _⟩
    · split
      · rename_i ready hready
        obtain ⟨noise, -, hready⟩ := bind_eq_ok.mp hready
        obtain ⟨frame, -, hready⟩ := bind_eq_ok.mp hready
        obtain ⟨⟨more, sent⟩, -, hready⟩ := bind_eq_ok.mp hready
        obtain rfl := pure_eq_ok.mp hready
        obtain ⟨-, hwritten⟩ := @interruptedReady_grows κ lib
          { s with noise := sent, handshake := [], phase := 1, written := s.written ++ more }
          ((s.handshake ++ bytes).drop 234)
        exact ⟨by rw [hzero]; exact Nat.zero_le _, (List.prefix_append _ _).trans hwritten⟩
      · exact ⟨le_refl _, List.prefix_refl _⟩
  · exact interruptedReady_grows bytes

theorem Speaking.interruptedReady (hc : Duplex lib.cipher follows) (ht : t.Bytewise)
    (h : s.Speaking lib.cipher follows pool first t submitted) (bytes : Bytes) :
    (s.interruptedReady lib bytes).Speaking lib.cipher follows pool first t submitted := by
  unfold Session.interruptedReady
  cases hframes : s.noise.receive lib.cipher bytes with
  | error e => exact h
  | ok result =>
      obtain ⟨frames, noise⟩ := result
      refine handled_induction (s := { s with noise := noise })
        (motive := fun next => next.Speaking lib.cipher follows pool first t submitted)
        ⟨h.terms, h.phase, h.closed, h.heard.listen hc hframes⟩ ?_ frames
      exact fun before m out after hbefore happly => hbefore.apply hc ht happly

/-- What has been said when a read throws. -/
theorem Spoken.interrupted {initial : κ} {pool : Bytes → κ} (hc : Duplex lib.cipher follows)
    (hpool : Answers lib.cipher follows pool initial) (ht : t.Bytewise)
    (h : s.Spoken lib.cipher follows pool initial first t submitted) (bytes : Bytes) :
    (s.interrupted lib bytes).Spoken lib.cipher follows pool initial first t submitted := by
  unfold Session.interrupted
  split
  · rename_i hzero
    dsimp only
    split
    · exact h
    · split
      · rename_i ready hready
        obtain ⟨noise, hfinish, hready⟩ := bind_eq_ok.mp hready
        obtain ⟨frame, hframe, hsend⟩ := bind_eq_ok.mp hready
        exact ((h.answered hc.toInOrder hpool ht hzero hfinish hframe hsend).interruptedReady hc ht
          _).spoken
      · exact h
  · rename_i hopen
    obtain ⟨answer, hspeaking⟩ := h.speaking hopen
    exact (hspeaking.interruptedReady hc ht bytes).spoken

/-- The request `submit` makes of a share. -/
def shareRequest (s : Session κ) (j : Job) (nonce : UInt64) (sequence : UInt32) : Request :=
  .submitStandard s.channel sequence j.wireJob nonce.toUInt32 j.time32 j.version

theorem Spoken.submit {initial : κ} {pool : Bytes → κ} (hc : InOrder lib.cipher follows) {j : Job}
    {nonce : UInt64} {sequence : UInt32}
    (h : s.Spoken lib.cipher follows pool initial first t submitted)
    (hsubmit : s.submit lib j nonce sequence = .ok s') :
    s'.Spoken lib.cipher follows pool initial first t
      (submitted ++ [s.shareRequest j nonce sequence]) := by
  obtain ⟨hguard, -⟩ := submit_ok hsubmit
  unfold Session.submit at hsubmit
  rw [if_pos hguard] at hsubmit
  simp only [submittable, Bool.and_eq_true] at hguard
  obtain ⟨-, -, hthree, -⟩ := valid_iff.mp hguard.1.1.1
  obtain ⟨answer, hheard⟩ := h.heard (by omega)
  let counted : Session κ := { s with pending := s.pending ++ [sequence], lastSent := sequence }
  have hcounted := hheard.same (show counted.written = s.written from rfl)
    (show counted.noise = s.noise from rfl)
  have hnext := hcounted.send hc (r := s.shareRequest j nonce sequence) trivial
    (submitStandard_frame _ _ _ _ _ _) hsubmit
  obtain ⟨noise, written, rfl⟩ := send_ok hsubmit
  refine ⟨h.terms, h.phase_le, fun hclosed => absurd hthree hclosed, fun hzero => ?_, fun _ => ?_⟩
  · exact absurd (hthree.symm.trans hzero) (by decide)
  · refine ⟨answer, ?_⟩
    rw [← List.append_assoc]
    exact hnext

/-- However its reads cut what was written after the first message, the pool
reads these requests from it and no others. What has not arrived yet is the end
of the list. -/
def PoolReads (c : Cipher κ) (pool : κ) (first written : Bytes) (requests : List Request) : Prop :=
  ∀ fragments rest, (∀ b ∈ fragments, b.length ≤ 8192) →
    written = first ++ fragments.flatten ++ rest → ∃ outs last read later,
      history (Noise.receive c) { ready := true, framing := ⟨pool, none, 0⟩ } fragments =
        .ok (outs, last) ∧
      outs.flatten.mapM readRequest = .ok read ∧ requests = read ++ later ∧
      (rest = [] → later = [])

/-- A pool that is in step reads the requests of a session. -/
theorem Heard.pieces (h : Heard c follows pool first s requests) :
    PoolReads c pool first s.written requests := by
  intro fragments rest hsizes hwritten
  obtain ⟨bytes, pool', hbytes, hrun, -⟩ := h.read
  rw [hbytes, List.append_assoc] at hwritten
  obtain rfl := List.append_cancel_left hwritten
  obtain ⟨frames, framing, left, more, hfirst, hlater, hsplit⟩ := Decoder.run_split hrun
  obtain ⟨outs, houts, hflatten⟩ := Noise.receive_fragments
    (n := { ready := true, framing := ⟨pool, none, 0⟩ }) ⟨rfl, rfl⟩
    (step_wait_iff.mpr (by simp [Framing.needs, pieceSize])) hsizes hfirst
  obtain ⟨read, later, hrequests, hread, hmore⟩ := List.map_eq_append_iff.mp hsplit
  refine ⟨outs, _, read, later, houts, ?_, hrequests, ?_⟩
  · rw [hflatten, ← hread]
    refine mapM_readRequest fun r hr => h.legal r ?_
    rw [hrequests]
    exact List.mem_append_left later hr
  · intro hnothing
    rw [hnothing, List.append_nil] at hrun
    rw [hrun] at hfirst
    cases hfirst
    have hlength := congrArg List.length hsplit
    rw [List.length_append] at hlength
    exact List.map_eq_nil_iff.mp (hmore.trans (List.length_eq_zero_iff.mp (by omega)))

end Session

end Supryolo.Sv2
