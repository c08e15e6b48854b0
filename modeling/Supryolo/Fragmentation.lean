import Supryolo.Framing
import Supryolo.Session
import Supryolo.Lib.Exchange

/-!
A session does not depend on how its input is cut into reads. A read decrypts
all it can before it handles the first message, so the cut decides how the
encryptions of the session fall between its decryptions. These use counters of
their own and can be exchanged; everything else a message does leaves the
transport alone.
-/

namespace Supryolo.Sv2

open Exchange Histories Incremental Loops

variable {κ : Type} {c : Cipher κ}

/-- What is relied on of the cipher: an encryption and a decryption that follow
each other can be exchanged. -/
structure Independent (c : Cipher κ) : Prop where
  swap : ∀ b x q p, Swaps (fun s s' => c.transform s false b = some (x, s'))
    fun s s' => c.transform s true q = some (p, s')

/-- Pieces encrypted one after the other. -/
def Encrypts (c : Cipher κ) : List Bytes → List Bytes → κ → κ → Prop
  | [], [] => Eq
  | b :: plain, x :: pieces =>
      Relation.Comp (fun s m => c.transform s false b = some (x, m)) (Encrypts c plain pieces)
  | _, _ => fun _ _ => False

theorem encrypts_swap (hc : Independent c) (q p : Bytes) (plain pieces : List Bytes) :
    Swaps (fun s s' => c.transform s true q = some (p, s')) (Encrypts c plain pieces) := by
  induction plain generalizing pieces with
  | nil =>
      cases pieces with
      | nil => exact swaps_eq
      | cons x pieces => exact swaps_false
  | cons b plain ih =>
      cases pieces with
      | nil => exact swaps_false
      | cons x pieces => exact swaps_comp (hc.swap b x q p).symm (ih pieces)

/-- A piece of plaintext, the frame it leaves under way with the size that is
missing, the frame it completes, and the frames after it. -/
abbrev Absorbed := Bytes × Option Frame × Nat × Option Frame × List Frame

/-- The decoder from one state of the cipher to another. -/
def Decodes (c : Cipher κ) (incoming : Option Frame) (remaining : Nat) (bytes : Bytes)
    (items : List Frame) (incoming' : Option Frame) (remaining' : Nat) (rest : Bytes) (s u : κ) :
    Prop :=
  Decoder.Runs (frameDecoder c) ⟨s, incoming, remaining⟩ bytes items ⟨u, incoming', remaining'⟩ rest

/-- Decoding is a wait, or the opening of a piece and more decoding. -/
theorem decodes_iff {incoming incoming' : Option Frame} {remaining remaining' : Nat}
    {bytes rest : Bytes} {items : List Frame} {s u : κ} :
    Decodes c incoming remaining bytes items incoming' remaining' rest s u ↔
      if bytes.length < pieceSize incoming remaining then
        (items = [] ∧ incoming = incoming' ∧ remaining = remaining' ∧ bytes = rest) ∧ s = u
      else ∃ absorbed : Absorbed,
        (absorb incoming remaining absorbed.1 =
            .ok (absorbed.2.1, absorbed.2.2.1, absorbed.2.2.2.1) ∧
          items = absorbed.2.2.2.1.toList ++ absorbed.2.2.2.2) ∧
        Relation.Comp
          (fun s m => c.transform s true (bytes.take (pieceSize incoming remaining)) =
            some (absorbed.1, m))
          (Decodes c absorbed.2.1 absorbed.2.2.1 (bytes.drop (pieceSize incoming remaining))
            absorbed.2.2.2.2 incoming' remaining' rest) s u := by
  constructor
  · intro h
    cases h with
    | wait hstep =>
        have hshort : bytes.length < pieceSize incoming remaining := step_wait_iff.mp hstep
        rw [if_pos hshort]
        exact ⟨⟨rfl, rfl, rfl, rfl⟩, rfl⟩
    | @take _ mid _ _ left _ o items hstep later =>
        obtain ⟨hle, rfl, p, htransform, habsorb⟩ := step_take_iff.mp hstep
        have hlong : ¬ bytes.length < pieceSize incoming remaining := Nat.not_lt.mpr hle
        rw [if_neg hlong]
        exact ⟨⟨p, mid.incoming, mid.remaining, o, items⟩, ⟨habsorb, rfl⟩, mid.state, htransform,
          later⟩
  · intro h
    split at h
    · rename_i hshort
      obtain ⟨⟨rfl, rfl, rfl, rfl⟩, rfl⟩ := h
      exact .wait (step_wait_iff.mpr hshort)
    · rename_i hlong
      obtain ⟨⟨p, next, left, o, later⟩, ⟨habsorb, rfl⟩, m, htransform, hlater⟩ := h
      have hstep : (frameDecoder c).step ⟨s, incoming, remaining⟩ bytes =
          .ok (.take ⟨m, next, left⟩ (bytes.drop (pieceSize incoming remaining)) o) :=
        step_take_iff.mpr ⟨Nat.le_of_not_lt hlong, rfl, p, htransform, habsorb⟩
      exact .take hstep hlater

/-- Encryptions can be put off until all input has been decoded, or be made
before. -/
theorem decodes_swap (hc : Independent c) (plain pieces : List Bytes)
    {incoming incoming' : Option Frame} {remaining remaining' : Nat} {bytes rest : Bytes}
    {items : List Frame} :
    Swaps (Encrypts c plain pieces)
      (Decodes c incoming remaining bytes items incoming' remaining' rest) := by
  induction hlength : bytes.length using Nat.strong_induction_on
    generalizing bytes items incoming remaining with
  | _ n ih =>
      subst hlength
      by_cases hshort : bytes.length < pieceSize incoming remaining
      · refine swaps_congr ?_ fun s u => decodes_iff.trans (iff_of_eq (if_pos hshort))
        exact swaps_guard fun _ => swaps_eq
      · have hsize : 16 ≤ pieceSize incoming remaining := by
          unfold pieceSize
          split <;> omega
        refine swaps_congr ?_ fun s u => decodes_iff.trans (iff_of_eq (if_neg hshort))
        refine swaps_exists fun absorbed => swaps_guard fun _ => swaps_comp ?_ ?_
        · exact (encrypts_swap hc _ _ plain pieces).symm
        · exact ih _ (by rw [List.length_drop]; omega) rfl

namespace Noise

theorem encryptAll_ok {n n' : Noise κ} (hup : n.Up) {plain : List Bytes} {out out' : Bytes} :
    plain.foldlM (encrypt c) (out, n) = .ok (out', n') ↔
      ∃ pieces state, Encrypts c plain pieces n.framing.state state ∧
        out' = out ++ pieces.flatten ∧ n' = n.withState state := by
  induction plain generalizing n out with
  | nil =>
      constructor
      · intro h
        obtain ⟨rfl, rfl⟩ := Prod.mk.inj (pure_eq_ok.mp h)
        exact ⟨[], n.framing.state, rfl, by simp, rfl⟩
      · rintro ⟨pieces, state, hencrypts, rfl, rfl⟩
        cases pieces with
        | nil =>
            obtain rfl := hencrypts
            simp only [List.foldlM_nil, List.flatten_nil, List.append_nil]
            rfl
        | cons x pieces => exact hencrypts.elim
  | cons b plain ih =>
      rw [List.foldlM_cons, bind_eq_ok]
      constructor
      · rintro ⟨⟨mid, n₁⟩, hfirst, hrest⟩
        obtain ⟨-, x, state, htransform, rfl, rfl⟩ := encrypt_ok.mp hfirst
        obtain ⟨pieces, last, hencrypts, rfl, rfl⟩ := (ih (hup.withState state)).mp hrest
        exact ⟨x :: pieces, last, ⟨state, htransform, hencrypts⟩, by simp, rfl⟩
      · rintro ⟨pieces, last, hencrypts, rfl, rfl⟩
        cases pieces with
        | nil => exact hencrypts.elim
        | cons x pieces =>
            obtain ⟨state, htransform, hencrypts⟩ := hencrypts
            refine ⟨(out ++ x, n.withState state), encrypt_ok.mpr ⟨hup, x, state, htransform, rfl, rfl⟩,
              ?_⟩
            exact (ih (hup.withState state)).mpr ⟨pieces, last, hencrypts, by simp, rfl⟩

theorem encode_ok {n n' : Noise κ} {f : Frame} {bytes : Bytes} :
    n.encode c f = .ok (bytes, n') ↔
      f.payload.length ≤ maxPayload ∧ n.Up ∧ ∃ pieces state,
        Encrypts c (framePieces f) pieces n.framing.state state ∧ bytes = pieces.flatten ∧
        n' = n.withState state := by
  unfold encode
  rw [guard_eq_ok]
  refine and_congr Nat.not_lt ?_
  change (framePieces f).foldlM (encrypt c) ([], n) = _ ↔ _
  by_cases hup : n.Up
  · rw [encryptAll_ok hup]
    simp [hup]
  · refine iff_of_false ?_ fun h => hup h.1
    rw [framePieces, List.foldlM_cons, bind_eq_ok]
    rintro ⟨⟨mid, n₁⟩, hfirst, -⟩
    exact hup (encrypt_ok.mp hfirst).1

end Noise

def Message.isSetup : Message → Bool
  | .setupSuccess _ _ => true
  | _ => false

namespace Session

variable {lib : Foreign κ} {s s' : Session κ}

/-- The transport decrypts what it has buffered and been given. -/
def Decrypts (lib : Foreign κ) (bytes : Bytes) (frames : List Frame) (s s' : Session κ) : Prop :=
  ∃ framing input, Decoder.Runs (frameDecoder lib.cipher) s.noise.framing (s.noise.input ++ bytes)
    frames framing input ∧ s' = { s with noise := { s.noise with framing := framing, input := input } }

theorem activate_noise (s : Session κ) (noise : Noise κ) (stored : Stored) (time : UInt32) :
    { s with noise := noise }.activate stored time =
      (s.activate stored time).map fun r => (r.1, { r.2 with noise := noise }) := by
  unfold activate
  dsimp only
  split
  · rfl
  · cases standardWork s.previous stored.wire.root s.extra time <;> rfl

theorem newJob_noise (s : Session κ) (noise : Noise κ) (m : NewJob) :
    { s with noise := noise }.newJob m =
      (s.newJob m).map fun s' => { s' with noise := noise } := by
  unfold newJob
  dsimp only
  split
  · rfl
  · split
    · rfl
    · cases m.ntime with
      | none => rfl
      | some time =>
          dsimp only
          rw [activate_noise]
          cases s.activate { wire := m, future := false } time <;> rfl

theorem prevHash_noise (s : Session κ) (noise : Noise κ) (channel job : UInt32) (hash : Hash)
    (ntime nbits : UInt32) :
    { s with noise := noise }.prevHash channel job hash ntime nbits =
      (s.prevHash channel job hash ntime nbits).map fun s' => { s' with noise := noise } := by
  unfold prevHash
  dsimp only
  split
  · rfl
  · cases s.jobs.lookup job with
    | none => rfl
    | some selected =>
        dsimp only
        split
        · rfl
        · cases compactTarget (hex (Words.leBytes 4 nbits.toUInt64).reverse) with
          | error e => rfl
          | ok networkTarget =>
              rw [ok_bind, ok_bind]
              have hactivate := activate_noise { s with
                jobs := ∅, epoch := s.epoch + 1, previous := hash, networkTarget := networkTarget
                havePrevious := true } noise selected ntime
              rw [hactivate]
              cases { s with
                jobs := ∅, epoch := s.epoch + 1, previous := hash, networkTarget := networkTarget
                havePrevious := true }.activate selected ntime <;> rfl

theorem settled_noise (s : Session κ) (noise : Noise κ) :
    { s with noise := noise }.settled =
      s.settled.map fun r => (r.1, { r.2 with noise := noise }) := by
  unfold settled
  cases settle s.batches s.pending <;> rfl

/-- Only the answer to the setup frame makes the session send something; all
other messages leave the transport alone and do not look at it. -/
theorem apply_noise (lib : Foreign κ) (s : Session κ) (noise : Noise κ) {m : Message}
    (hm : m.isSetup = false) :
    { s with noise := noise }.apply lib m =
      (s.apply lib m).map fun r => (r.1, { r.2 with noise := noise }) := by
  cases m with
  | setupSuccess version flags => cases hm
  | openSuccess request channel target extranonce group =>
      unfold apply openSuccess
      dsimp only
      split
      · rfl
      · split <;> rfl
  | newJob job =>
      have hnewJob := newJob_noise s noise job
      unfold apply
      dsimp only
      rw [hnewJob]
      cases s.newJob job <;> rfl
  | prevHash channel job hash ntime nbits =>
      have hprevHash := prevHash_noise s noise channel job hash ntime nbits
      unfold apply
      dsimp only
      rw [hprevHash]
      cases s.prevHash channel job hash ntime nbits <;> rfl
  | target channel target =>
      unfold apply setTarget
      dsimp only
      split <;> rfl
  | accepted channel last count sum =>
      unfold apply accepted
      dsimp only
      split
      · exact settled_noise { s with
          lastAck := last, batches := s.batches ++ [Batch.mk last count] } noise
      · rfl
  | rejected channel sequence reason =>
      unfold apply rejected
      dsimp only
      split
      · have hsettled := settled_noise { s with pending := s.pending.erase sequence } noise
        rw [hsettled]
        cases { s with pending := s.pending.erase sequence }.settled <;> rfl
      · rfl
  | error type reference reason => rfl

theorem apply_setup {version : UInt16} {flags : UInt32} {out : List Json} :
    s.apply lib (.setupSuccess version flags) = .ok (out, s') ↔
      out = [] ∧ (s.phase = 1 ∧ version = 2 ∧ flags &&& ~~~1 = 0) ∧
        ∃ frame, openStandard 1 s.user s.rate (Vector.replicate 32 255) = .ok frame ∧
          frame.payload.length ≤ maxPayload ∧ s.noise.Up ∧ ∃ pieces state,
            Encrypts lib.cipher (framePieces frame) pieces s.noise.framing.state state ∧
            s' = { s with
              noise := s.noise.withState state, written := s.written ++ pieces.flatten
              phase := 2 } := by
  constructor
  · intro h
    obtain ⟨next, hnext, h⟩ := bind_eq_ok.mp h
    obtain ⟨rfl, rfl⟩ := Prod.mk.inj (pure_eq_ok.mp h)
    obtain ⟨hguard, hnext⟩ := guard_eq_ok.mp hnext
    obtain ⟨frame, hframe, hnext⟩ := bind_eq_ok.mp hnext
    obtain ⟨sent, hsent, hnext⟩ := bind_eq_ok.mp hnext
    obtain ⟨⟨bytes, noise⟩, hencode, hsent⟩ := bind_eq_ok.mp hsent
    obtain rfl := pure_eq_ok.mp hsent
    obtain rfl := pure_eq_ok.mp hnext
    simp only [not_or, ne_eq, not_not] at hguard
    obtain ⟨hsize, hup, pieces, state, hencrypts, rfl, rfl⟩ := Noise.encode_ok.mp hencode
    exact ⟨rfl, hguard, frame, hframe, hsize, hup, pieces, state, hencrypts, rfl⟩
  · rintro ⟨rfl, hguard, frame, hframe, hsize, hup, pieces, state, hencrypts, rfl⟩
    have hencode : s.noise.encode lib.cipher frame =
        .ok (pieces.flatten, s.noise.withState state) :=
      Noise.encode_ok.mpr ⟨hsize, hup, pieces, state, hencrypts, rfl, rfl⟩
    have hpass : ¬ (s.phase ≠ 1 ∨ version ≠ 2 ∨ flags &&& ~~~1 ≠ 0) := by
      simpa only [not_or, ne_eq, not_not] using hguard
    have hsetup : s.setupSuccess lib version flags = .ok { s with
        noise := s.noise.withState state, written := s.written ++ pieces.flatten, phase := 2 } := by
      unfold setupSuccess
      dsimp only
      rw [if_neg hpass, hframe, ok_bind, send, hencode]
      rfl
    unfold apply
    dsimp only
    rw [hsetup]
    rfl

/-- Whether a message is handled before or after more input is decrypted makes no
difference. -/
theorem apply_swap (hc : Independent lib.cipher) (m : Message) (out : List Json) (bytes : Bytes)
    (frames : List Frame) :
    Swaps (fun s s' => s.apply lib m = .ok (out, s')) (Decrypts lib bytes frames) := by
  by_cases hm : m.isSetup = true
  · cases m with
    | setupSuccess version flags =>
        intro s u
        constructor
        · rintro ⟨s', happly, framing, input, hruns, rfl⟩
          obtain ⟨rfl, hguard, frame, hframe, hsize, hup, pieces, state, hencrypts, rfl⟩ :=
            apply_setup.mp happly
          obtain ⟨state', hruns, hencrypts⟩ := (decodes_swap hc _ _ _ _).mp ⟨state, hencrypts, hruns⟩
          refine ⟨_, ⟨⟨state', framing.incoming, framing.remaining⟩, input, hruns, rfl⟩, ?_⟩
          exact apply_setup.mpr ⟨rfl, hguard, frame, hframe, hsize, ⟨hup.ready, hup.failed⟩, pieces,
            framing.state, hencrypts, rfl⟩
        · rintro ⟨s', ⟨framing, input, hruns, rfl⟩, happly⟩
          obtain ⟨rfl, hguard, frame, hframe, hsize, hup, pieces, state, hencrypts, rfl⟩ :=
            apply_setup.mp happly
          obtain ⟨state', hencrypts, hruns⟩ :=
            (decodes_swap hc _ _ _ _).mpr ⟨framing.state, hruns, hencrypts⟩
          refine ⟨_, apply_setup.mpr ⟨rfl, hguard, frame, hframe, hsize, ⟨hup.ready, hup.failed⟩,
            pieces, state', hencrypts, rfl⟩, ?_⟩
          exact ⟨⟨state, framing.incoming, framing.remaining⟩, input, hruns, rfl⟩
    | _ => cases hm
  · rw [Bool.not_eq_true] at hm
    -- The transport after the message is the one before it.
    have hkept {s s' : Session κ} (happly : s.apply lib m = .ok (out, s')) :
        s'.noise = s.noise := by
      have hsame := apply_noise lib s s.noise hm
      rw [happly] at hsame
      have hs' := congrArg (fun r : List Json × Session κ => r.2.noise) (Except.ok.inj hsame)
      exact hs'
    intro s u
    constructor
    · rintro ⟨s', happly, framing, input, hruns, rfl⟩
      have hnoise := hkept happly
      rw [hnoise] at hruns
      refine ⟨_, ⟨framing, input, hruns, rfl⟩, ?_⟩
      have hafter := apply_noise lib s { s.noise with framing := framing, input := input } hm
      rw [happly] at hafter
      rw [hnoise]
      exact hafter
    · rintro ⟨s', ⟨framing, input, hruns, rfl⟩, happly⟩
      have hafter := apply_noise lib s { s.noise with framing := framing, input := input } hm
      replace happly := hafter.symm.trans happly
      cases hresult : s.apply lib m with
      | error e => rw [hresult] at happly; cases happly
      | ok result =>
          obtain ⟨out', next⟩ := result
          rw [hresult] at happly
          cases happly
          have hnoise := hkept hresult
          refine ⟨next, hresult, framing, input, ?_, ?_⟩
          · rw [hnoise]
            exact hruns
          · rw [hnoise]

theorem receiveFrames_cons_iff {frame : Frame} {rest : List Frame} {out : List Json} :
    s.receiveFrames lib (frame :: rest) = .ok (out, s') ↔
      ∃ handled : Message × List Json × List Json,
        (decode frame = .ok handled.1 ∧ out = handled.2.1 ++ [promptEvent] ++ handled.2.2) ∧
        Relation.Comp (fun s t => s.apply lib handled.1 = .ok (handled.2.1, t))
          (fun t u => t.receiveFrames lib rest = .ok (handled.2.2, u)) s s' := by
  constructor
  · intro h
    cases hdecode : decode frame with
    | error e =>
        rw [receiveFrames, List.foldlM_cons, hdecode] at h
        cases h
    | ok message =>
        rw [receiveFrames_cons rest hdecode] at h
        obtain ⟨⟨pushed, middle⟩, hhandle, h⟩ := bind_eq_ok.mp h
        obtain ⟨⟨later, last⟩, hlater, h⟩ := bind_eq_ok.mp h
        obtain ⟨rfl, rfl⟩ := Prod.mk.inj (pure_eq_ok.mp h)
        obtain ⟨events, happly, rfl⟩ := handle_ok hhandle
        exact ⟨(message, events, later), ⟨rfl, rfl⟩, middle, happly, hlater⟩
  · rintro ⟨⟨message, events, later⟩, ⟨hdecode, rfl⟩, middle, happly, hlater⟩
    have hhandle : s.handle lib message = .ok (events ++ [promptEvent], middle) := by
      rw [handle, happly]
      rfl
    rw [receiveFrames_cons rest hdecode, hhandle, ok_bind]
    dsimp only at hlater ⊢
    rw [hlater]
    rfl

theorem receiveFrames_append {first later : List Frame} {out : List Json} :
    s.receiveFrames lib (first ++ later) = .ok (out, s') ↔
      ∃ events : List Json × List Json, out = events.1 ++ events.2 ∧
        Relation.Comp (fun s t => s.receiveFrames lib first = .ok (events.1, t))
          (fun t u => t.receiveFrames lib later = .ok (events.2, u)) s s' := by
  induction first generalizing s out with
  | nil =>
      constructor
      · intro h
        exact ⟨([], out), rfl, s, rfl, h⟩
      · rintro ⟨⟨earlier, out'⟩, rfl, t, hnil, h⟩
        obtain ⟨rfl, rfl⟩ := Prod.mk.inj (pure_eq_ok.mp hnil)
        exact h
  | cons frame first ih =>
      rw [List.cons_append, receiveFrames_cons_iff]
      constructor
      · rintro ⟨⟨message, events, rest⟩, ⟨hdecode, rfl⟩, t, happly, hrest⟩
        obtain ⟨⟨earlier, out'⟩, hout, u, hearlier, hlater⟩ := ih.mp hrest
        refine ⟨(events ++ [promptEvent] ++ earlier, out'), ?_, u, ?_, hlater⟩
        · rw [hout]
          exact (List.append_assoc _ earlier out').symm
        · exact receiveFrames_cons_iff.mpr ⟨(message, events, earlier), ⟨hdecode, rfl⟩, t, happly,
            hearlier⟩
      · rintro ⟨⟨earlier, out'⟩, rfl, u, hearlier, hlater⟩
        obtain ⟨⟨message, events, rest⟩, ⟨hdecode, hearlier⟩, t, happly, hrest⟩ :=
          receiveFrames_cons_iff.mp hearlier
        refine ⟨(message, events, rest ++ out'), ⟨hdecode, ?_⟩, t, happly, ?_⟩
        · rw [hearlier, List.append_assoc]
        · exact ih.mpr ⟨(rest, out'), rfl, u, hrest, hlater⟩

theorem receiveFrames_swap (hc : Independent lib.cipher) (handled : List Frame) (out : List Json)
    (bytes : Bytes) (frames : List Frame) :
    Swaps (Decrypts lib bytes frames)
      (fun s s' => s.receiveFrames lib handled = .ok (out, s')) := by
  induction handled generalizing out with
  | nil =>
      refine swaps_congr (swaps_guard (p := [] = out) fun _ => swaps_eq) ?_
      intro s u
      constructor
      · intro h
        exact Prod.mk.inj (pure_eq_ok.mp h)
      · rintro ⟨rfl, rfl⟩
        rfl
  | cons frame rest ih =>
      refine swaps_congr ?_ fun s u => receiveFrames_cons_iff
      refine swaps_exists fun handled => swaps_guard fun _ => swaps_comp ?_ ?_
      · exact (apply_swap hc handled.1 handled.2.1 bytes frames).symm
      · exact ih handled.2.2

theorem decrypts_append {first more : Bytes} {frames : List Frame} :
    Decrypts lib (first ++ more) frames s s' ↔
      ∃ cut : List Frame × List Frame, frames = cut.1 ++ cut.2 ∧
        Relation.Comp (Decrypts lib first cut.1) (Decrypts lib more cut.2) s s' := by
  constructor
  · rintro ⟨framing, input, hruns, rfl⟩
    rw [← List.append_assoc, ← Decoder.run_iff] at hruns
    obtain ⟨earlier, mid, left, later, hearlier, hlater, rfl⟩ := Decoder.run_split hruns
    refine ⟨(earlier, later), rfl, _, ⟨mid, left, Decoder.run_iff.mp hearlier, rfl⟩, ?_⟩
    exact ⟨framing, input, Decoder.run_iff.mp hlater, rfl⟩
  · rintro ⟨⟨earlier, later⟩, rfl, t, ⟨mid, left, hearlier, rfl⟩, framing, input, hlater, rfl⟩
    refine ⟨framing, input, ?_, rfl⟩
    rw [← Decoder.run_iff] at hearlier hlater ⊢
    rw [← List.append_assoc, Decoder.run_append hearlier]
    dsimp only at hlater
    rw [hlater]
    rfl

/-- All input is decrypted, then all messages are handled. -/
def Reads (lib : Foreign κ) (bytes : Bytes) (events : List Json) (s s' : Session κ) : Prop :=
  ∃ frames, Relation.Comp (Decrypts lib bytes frames)
    (fun t u => t.receiveFrames lib frames = .ok (events, u)) s s'

/-- Input can be read in two parts. -/
theorem reads_append (hc : Independent lib.cipher) {first more : Bytes} {events : List Json} :
    Reads lib (first ++ more) events s s' ↔
      ∃ cut : List Json × List Json, events = cut.1 ++ cut.2 ∧
        Relation.Comp (Reads lib first cut.1) (Reads lib more cut.2) s s' := by
  constructor
  · rintro ⟨frames, t, hdecrypts, hhandled⟩
    obtain ⟨⟨earlier, later⟩, rfl, m, hearlier, hlater⟩ := decrypts_append.mp hdecrypts
    obtain ⟨⟨before, after⟩, rfl, v, hbefore, hafter⟩ := receiveFrames_append.mp hhandled
    -- The first messages are handled before the rest is decrypted.
    obtain ⟨w, hbefore, hlater⟩ :=
      (receiveFrames_swap hc earlier before more later m v).mp ⟨t, hlater, hbefore⟩
    exact ⟨(before, after), rfl, w, ⟨earlier, m, hearlier, hbefore⟩, later, v, hlater, hafter⟩
  · rintro ⟨⟨before, after⟩, rfl, w, ⟨earlier, m, hearlier, hbefore⟩, later, v, hlater, hafter⟩
    obtain ⟨t, hlater, hbefore⟩ :=
      (receiveFrames_swap hc earlier before more later m v).mpr ⟨w, hbefore, hlater⟩
    refine ⟨earlier ++ later, t, ?_, ?_⟩
    · exact decrypts_append.mpr ⟨(earlier, later), rfl, m, hearlier, hlater⟩
    · exact receiveFrames_append.mpr ⟨(before, after), rfl, v, hbefore, hafter⟩

/-- The transport has nothing left to decrypt. -/
structure Waits (lib : Foreign κ) (s : Session κ) : Prop where
  up : s.noise.Up
  wait : (frameDecoder lib.cipher).step s.noise.framing s.noise.input = .ok .wait

theorem receiveReady_reads {bytes : Bytes} {out : List Json}
    (h : s.receiveReady lib bytes = .ok (out, s')) : s.noise.Up ∧ Reads lib bytes out s s' := by
  obtain ⟨⟨frames, noise⟩, hnoise, h⟩ := bind_eq_ok.mp h
  obtain ⟨hup, hnoise⟩ := guard_eq_ok.mp hnoise
  obtain ⟨-, hnoise⟩ := guard_eq_ok.mp hnoise
  obtain ⟨⟨items, framing, input⟩, hrun, hnoise⟩ := bind_eq_ok.mp hnoise
  obtain ⟨-, hnoise⟩ := guard_eq_ok.mp hnoise
  obtain ⟨rfl, rfl⟩ := Prod.mk.inj (pure_eq_ok.mp hnoise)
  refine ⟨not_not.mp (Noise.down_iff.not.mp hup), items, _, ?_, h⟩
  exact ⟨framing, input, Decoder.run_iff.mp hrun, rfl⟩

theorem reads_receiveReady (hwaits : s.Waits lib) {bytes : Bytes} (hsize : bytes.length ≤ 8192)
    {out : List Json} (h : Reads lib bytes out s s') : s.receiveReady lib bytes = .ok (out, s') := by
  obtain ⟨frames, t, ⟨framing, input, hruns, rfl⟩, hhandled⟩ := h
  have hrun := Decoder.run_iff.mpr hruns
  rw [receiveReady, Noise.receive_of_run hwaits.up hwaits.wait hsize hrun]
  exact hhandled

/-- Messages may move the cipher on, but leave the buffer and the frame under way
alone. -/
theorem Waits.apply {m : Message} {out : List Json} (hwaits : s.Waits lib)
    (h : s.apply lib m = .ok (out, s')) : s'.Waits lib := by
  by_cases hm : m.isSetup = true
  · cases m with
    | setupSuccess version flags =>
        obtain ⟨-, -, frame, -, -, -, pieces, state, -, rfl⟩ := apply_setup.mp h
        have hshort : s.noise.input.length < s.noise.framing.needs := step_wait_iff.mp hwaits.wait
        exact ⟨hwaits.up.withState state, step_wait_iff.mpr hshort⟩
    | _ => cases hm
  · rw [Bool.not_eq_true] at hm
    have hsame := apply_noise lib s s.noise hm
    rw [h] at hsame
    have hnoise : s'.noise = s.noise :=
      congrArg (fun r : List Json × Session κ => r.2.noise) (Except.ok.inj hsame)
    exact ⟨hnoise ▸ hwaits.up, hnoise ▸ hwaits.wait⟩

theorem Waits.reads {bytes : Bytes} {events : List Json} (hwaits : s.Waits lib)
    (h : Reads lib bytes events s s') : s'.Waits lib := by
  obtain ⟨frames, t, ⟨framing, input, hruns, rfl⟩, hhandled⟩ := h
  have hstart : Waits lib { s with
      noise := { s.noise with framing := framing, input := input } } :=
    ⟨⟨hwaits.up.ready, hwaits.up.failed⟩, hruns.stops⟩
  exact receiveFrames_induction (motive := fun _ s => s.Waits lib) hhandled hstart
    fun _ _ _ _ _ hwaits happly => hwaits.apply happly

theorem history_reads (hc : Independent lib.cipher) (hwaits : s.Waits lib) (chunks : List Bytes)
    {outs : List (List Json)} (h : history (receiveReady lib) s chunks = .ok (outs, s')) :
    Reads lib chunks.flatten outs.flatten s s' := by
  induction chunks generalizing s outs with
  | nil =>
      obtain ⟨rfl, rfl⟩ := Prod.mk.inj (pure_eq_ok.mp h)
      refine ⟨[], s, ⟨s.noise.framing, s.noise.input, ?_, rfl⟩, rfl⟩
      rw [List.flatten_nil, List.append_nil]
      exact .wait hwaits.wait
  | cons b chunks ih =>
      obtain ⟨out, middle, later, hread, hlater, rfl⟩ := history_cons.mp h
      have hreads := (receiveReady_reads hread).2
      exact (reads_append hc).mpr ⟨(out, later.flatten), rfl, middle, hreads,
        ih (hwaits.reads hreads) hlater⟩

theorem reads_history (hc : Independent lib.cipher) (hwaits : s.Waits lib) (chunks : List Bytes)
    (hsizes : ∀ b ∈ chunks, b.length ≤ 8192) {events : List Json}
    (h : Reads lib chunks.flatten events s s') :
    ∃ outs, history (receiveReady lib) s chunks = .ok (outs, s') ∧ outs.flatten = events := by
  induction chunks generalizing s events with
  | nil =>
      obtain ⟨frames, t, ⟨framing, input, hruns, rfl⟩, hhandled⟩ := h
      rw [List.flatten_nil, List.append_nil, ← Decoder.run_iff, Decoder.run_wait hwaits.wait] at hruns
      cases hruns
      obtain ⟨rfl, rfl⟩ := Prod.mk.inj (pure_eq_ok.mp hhandled)
      exact ⟨[], rfl, rfl⟩
  | cons b chunks ih =>
      obtain ⟨⟨before, after⟩, rfl, middle, hbefore, hafter⟩ := (reads_append hc).mp h
      obtain ⟨outs, houts, rfl⟩ := ih (hwaits.reads hbefore)
        (fun b hb => hsizes b (List.mem_cons_of_mem _ hb)) hafter
      have hread := reads_receiveReady hwaits (hsizes b List.mem_cons_self) hbefore
      exact ⟨before :: outs, history_cons.mpr ⟨_, _, _, hread, houts, rfl⟩, rfl⟩

/-! ### The handshake -/

/-- Every message is answered in a phase after the handshake. -/
theorem phase_of_apply {m : Message} {out : List Json} (h : s.apply lib m = .ok (out, s')) :
    s'.phase ≠ 0 := by
  cases applied_of_ok h with
  | greeted => simp
  | opened => simp
  | stored m hphase => simp [hphase]
  | announced m time job hphase => simp [hphase]
  | renewed channel id ntime nbits hash networkTarget selected job hphase => simp [hphase]
  | targeted channel target number hphase => simp [hphase]
  | accepted channel last count sum events batches pending hphase => simp [hphase]
  | rejected channel sequence reason events batches pending hphase => simp [hphase]

theorem phase_of_receiveReady {bytes : Bytes} {out : List Json} (hphase : s.phase ≠ 0)
    (h : s.receiveReady lib bytes = .ok (out, s')) : s'.phase ≠ 0 := by
  obtain ⟨⟨frames, noise⟩, -, h⟩ := bind_eq_ok.mp h
  exact receiveFrames_induction (motive := fun _ s => s.phase ≠ 0) h hphase
    fun _ _ _ _ _ _ happly => phase_of_apply happly

/-- After the handshake a read is nothing but a read of frames. -/
theorem history_ready (hphase : s.phase ≠ 0) {chunks : List Bytes} {outs : List (List Json)} :
    history (receive lib) s chunks = .ok (outs, s') ↔
      history (receiveReady lib) s chunks = .ok (outs, s') := by
  induction chunks generalizing s outs with
  | nil => exact Iff.rfl
  | cons b chunks ih =>
      have hread : s.receive lib b = s.receiveReady lib b := by rw [receive, if_neg hphase]
      rw [history_cons, history_cons, hread]
      constructor
      · rintro ⟨out, middle, later, hout, hlater, rfl⟩
        exact ⟨out, middle, later, hout, (ih (phase_of_receiveReady hphase hout)).mp hlater, rfl⟩
      · rintro ⟨out, middle, later, hout, hlater, rfl⟩
        exact ⟨out, middle, later, hout, (ih (phase_of_receiveReady hphase hout)).mpr hlater, rfl⟩

/-- What the response of the pool sets off: the handshake is finished and the
setup frame is sent. -/
def greet (lib : Foreign κ) (s : Session κ) (response : Bytes) : Except String (Session κ) := do
  let noise ← s.noise.finish lib.cipher response
  let frame ← setup s.host s.port "supryolo/0.2.1".toList
  { s with noise := noise, handshake := [], phase := 1 }.send lib frame

theorem receive_gathers (lib : Foreign κ) (s : Session κ) (bytes : Bytes) (hphase : s.phase = 0)
    (hshort : (s.handshake ++ bytes).length < 234) :
    s.receive lib bytes = .ok ([], { s with handshake := s.handshake ++ bytes }) := by
  rw [receive, if_pos hphase, if_neg (by omega), if_pos hshort]
  rfl

theorem receive_greets (lib : Foreign κ) (s : Session κ) (bytes : Bytes) (hphase : s.phase = 0)
    (hlong : 234 ≤ (s.handshake ++ bytes).length) (hlimit : (s.handshake ++ bytes).length ≤ 65536) :
    s.receive lib bytes = (s.greet lib ((s.handshake ++ bytes).take 234) >>= fun t =>
      t.receiveReady lib ((s.handshake ++ bytes).drop 234)) := by
  rw [receive, if_pos hphase, if_neg (by omega), if_neg (by omega), greet]
  simp only [bind_assoc]

/-- After the greeting the transport is up and waits for the first frame. -/
theorem greet_waits {response : Bytes} (hincoming : s.noise.framing.incoming = none)
    (hinput : s.noise.input = []) (h : s.greet lib response = .ok s') :
    s'.Waits lib ∧ s'.phase ≠ 0 := by
  obtain ⟨noise, hfinish, h⟩ := bind_eq_ok.mp h
  obtain ⟨frame, -, h⟩ := bind_eq_ok.mp h
  obtain ⟨⟨bytes, sent⟩, hencode, h⟩ := bind_eq_ok.mp h
  obtain rfl := pure_eq_ok.mp h
  obtain ⟨-, hup, pieces, state, -, -, rfl⟩ := Noise.encode_ok.mp hencode
  obtain ⟨-, hfinish⟩ := guard_eq_ok.mp hfinish
  cases hstate : lib.cipher.finish s.noise.framing.state response with
  | none => rw [hstate] at hfinish; cases hfinish
  | some authentic =>
      rw [hstate] at hfinish
      obtain rfl := pure_eq_ok.mp hfinish
      refine ⟨⟨hup.withState state, step_wait_iff.mpr ?_⟩, Nat.one_ne_zero⟩
      change s.noise.input.length < pieceSize s.noise.framing.incoming s.noise.framing.remaining
      rw [hinput, hincoming]
      exact (by decide : 0 < 22)

/-- The response of the pool may itself come in pieces, and the first frames
right behind it. -/
theorem history_greets (hc : Independent lib.cipher) (s : Session κ) (hphase : s.phase = 0)
    {t u : Session κ} (hwaits : t.Waits lib) (ht : t.phase ≠ 0) {chunks : List Bytes}
    (hsizes : ∀ b ∈ chunks, b.length ≤ 8192) (gathered : Bytes) (hshort : gathered.length < 234)
    (hlong : 234 ≤ (gathered ++ chunks.flatten).length)
    (hgreet : s.greet lib ((gathered ++ chunks.flatten).take 234) = .ok t) {events : List Json}
    (hreads : Reads lib ((gathered ++ chunks.flatten).drop 234) events t u) :
    ∃ outs, history (receive lib) { s with handshake := gathered } chunks = .ok (outs, u) ∧
      outs.flatten = events := by
  induction chunks generalizing gathered with
  | nil =>
      rw [List.flatten_nil, List.append_nil] at hlong
      omega
  | cons b chunks ih =>
      have hb := hsizes b List.mem_cons_self
      rw [List.flatten_cons, ← List.append_assoc] at hlong hgreet hreads
      by_cases hmore : (gathered ++ b).length < 234
      · obtain ⟨outs, houts, hflatten⟩ := ih (fun b hb => hsizes b (List.mem_cons_of_mem _ hb))
          (gathered ++ b) hmore hlong hgreet hreads
        have hread := receive_gathers lib { s with handshake := gathered } b hphase hmore
        exact ⟨[] :: outs, history_cons.mpr ⟨_, _, _, hread, houts, rfl⟩, hflatten⟩
      · have hfull : 234 ≤ (gathered ++ b).length := Nat.le_of_not_lt hmore
        have hlength : (gathered ++ b).length = gathered.length + b.length := List.length_append
        rw [List.take_append_of_le_length hfull] at hgreet
        rw [List.drop_append_of_le_length hfull] at hreads
        -- From here on the reads are those of the frames, the first of them shorter.
        obtain ⟨outs, houts, hflatten⟩ := reads_history hc hwaits ((gathered ++ b).drop 234 :: chunks)
          (List.forall_mem_cons.mpr ⟨by rw [List.length_drop]; omega,
            fun b hb => hsizes b (List.mem_cons_of_mem _ hb)⟩) hreads
        obtain ⟨out, middle, later, hread, hlater, rfl⟩ := history_cons.mp houts
        have hfirst := receive_greets lib { s with handshake := gathered } b hphase hfull
          (by dsimp only; rw [hlength]; omega)
        have hsame : { s with handshake := gathered }.greet lib ((gathered ++ b).take 234) =
            .ok t := hgreet
        rw [hsame, ok_bind, hread] at hfirst
        exact ⟨out :: later, history_cons.mpr ⟨_, _, _, hfirst,
          (history_ready (phase_of_receiveReady ht hread)).mpr hlater, rfl⟩, hflatten⟩

/-- The session does not depend on fragmentation. When the response of the pool
and the calls after it are handled without an exception, then so is every split
of the same bytes into chunks of at most 8192 bytes, with the same events and the
same state in the end, what has been written included. -/
theorem fragmentation_independent (hc : Independent lib.cipher) (state : κ) (first : Bytes)
    (host : Text) (port : UInt16) (user : Text) (rate : UInt32) {response : Bytes}
    (hresponse : response.length = 234) {frames : List Bytes} {outs : List (List Json)}
    (h : history (receive lib) (start state first host port user rate) (response :: frames) =
      .ok (outs, s))
    (chunks : List Bytes) (hsizes : ∀ b ∈ chunks, b.length ≤ 8192)
    (hcut : chunks.flatten = response ++ frames.flatten) :
    ∃ outs', history (receive lib) (start state first host port user rate) chunks = .ok (outs', s) ∧
      outs'.flatten = outs.flatten := by
  obtain ⟨out, middle, later, hfirst, hlater, rfl⟩ := history_cons.mp h
  rw [receive_greets lib (start state first host port user rate) response rfl
    (le_of_eq hresponse.symm) (le_of_eq_of_le hresponse (by decide))] at hfirst
  obtain ⟨t, hgreet, hread⟩ := bind_eq_ok.mp hfirst
  have hgathered : (start state first host port user rate).handshake ++ response = response := rfl
  rw [hgathered, List.take_of_length_le hresponse.le] at hgreet
  rw [hgathered, List.drop_of_length_le hresponse.le] at hread
  obtain ⟨hwaits, hphase⟩ := greet_waits rfl rfl hgreet
  -- What the calls did is one read of all the frames.
  have hreads : Reads lib frames.flatten (out :: later).flatten t s :=
    history_reads hc hwaits ([] :: frames) (history_cons.mpr ⟨out, middle, later, hread,
      (history_ready (phase_of_receiveReady hphase hread)).mp hlater, rfl⟩)
  refine history_greets hc (start state first host port user rate) rfl hwaits hphase hsizes []
    (by decide) ?_ ?_ ?_
  · rw [List.nil_append, hcut, List.length_append]
    omega
  · rw [List.nil_append, hcut, List.take_left' hresponse]
    exact hgreet
  · rw [List.nil_append, hcut, List.drop_left' hresponse]
    exact hreads

theorem paddingCipher_independent : Independent paddingCipher where
  swap b x q p := by
    intro s u
    constructor
    · rintro ⟨m, hseal, hopen⟩
      exact ⟨(), hopen, hseal⟩
    · rintro ⟨m, hopen, hseal⟩
      exact ⟨(), hseal, hopen⟩

/-- The response and the first frame, in two calls and in one. -/
theorem fragmentation_independent_sample : ∃ outs s,
    history (receive sampleForeign) (start () [] "pool".toList 3336 "user".toList 0)
        [List.replicate 234 0, sampleAnswer] = .ok (outs, s) ∧
      ∃ outs', history (receive sampleForeign) (start () [] "pool".toList 3336 "user".toList 0)
        [List.replicate 234 0 ++ sampleAnswer] = .ok (outs', s) ∧ outs'.flatten = outs.flatten := by
  have hcheck : (history (receive sampleForeign) (start () [] "pool".toList 3336 "user".toList 0)
      [List.replicate 234 0, sampleAnswer]).isOk = true := by
    decide +kernel
  cases hrun : history (receive sampleForeign) (start () [] "pool".toList 3336 "user".toList 0)
      [List.replicate 234 0, sampleAnswer] with
  | error e => rw [hrun] at hcheck; cases hcheck
  | ok result =>
      obtain ⟨outs, s⟩ := result
      refine ⟨outs, s, rfl, fragmentation_independent paddingCipher_independent () [] "pool".toList
        3336 "user".toList 0 List.length_replicate hrun _ ?_ ?_⟩
      · intro b hb
        obtain rfl := List.mem_singleton.mp hb
        rw [List.length_append, List.length_replicate]
        decide
      · rw [List.flatten_singleton, List.flatten_singleton]

end Session

end Supryolo.Sv2
