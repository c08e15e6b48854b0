import Supryolo.Conduct
import Supryolo.Wire

namespace Supryolo.Sv2

open Effects Words

variable {κ : Type}

namespace Live

variable {lib : Outside κ} {first s s' : Live κ}

/-- The states a session goes through: between calls, and between the frames of
one read. -/
inductive Reachable (lib : Outside κ) (first : Live κ) : Live κ → Prop
  | start : Reachable lib first first
  | call {s : Live κ} (call : Call) (earlier : Reachable lib first s) :
      Reachable lib first (left (perform lib call) s)
  | frames {s : Live κ} (k : Nat) (bytes : Bytes) (earlier : Reachable lib first s) :
      Reachable lib first (left (receiveFirst lib k bytes) s)

theorem reachable_calls (h : Reachable lib first s) (inputs : List Call) :
    Reachable lib first (inputs.foldl (fun s call => left (perform lib call) s) s) := by
  induction inputs generalizing s with
  | nil => exact h
  | cons call rest ih => exact ih (.call call h)

theorem conduct_reachable {t : Terms} (hfirst : Conduct t first) (h : Reachable lib first s) :
    Conduct t s := by
  induction h with
  | start => exact hfirst
  | call call earlier ih => exact (conduct_perform ih call).left
  | frames k bytes earlier ih =>
      exact (conduct_receiveWith ih (fun frames s h => conduct_frames h (frames.take k)) bytes).left

/-- What the handler checks before it changes anything. -/
structure Acceptable (s : Session κ) (channel job : UInt32) (hash : Hash) (nbits : UInt32) :
    Prop where
  phase : s.phase = 3
  channel : channel = s.channel ∨ channel = s.group
  job : job ∈ s.jobs
  hidden : (hash.toList.take 6).all (· == 0) = true
  nbits : ∃ target, compactTarget (hex (leBytes 4 nbits.toUInt64).reverse) = .ok target

/-- The checks decide: either nothing has changed, or nothing can fail any more. -/
theorem prevHash_ends (hextra : s.session.phase = 3 → s.session.extra.length = 12)
    (channel job : UInt32) (hash : Hash) (ntime nbits : UInt32) :
    Ends (prevHash channel job hash ntime nbits)
      (fun _ _ => Acceptable s.session channel job hash nbits)
      (fun _ s' => s' = s ∧ ¬ Acceptable s.session channel job hash nbits) s := by
  unfold prevHash
  simp only [ends_bind, ends_getSession, ends_require]
  refine ⟨fun hguard => ?_, fun hguard => ⟨trivial, fun h => hguard ⟨h.phase, h.channel⟩⟩⟩
  cases hlookup : s.session.jobs.lookup job with
  | none =>
      refine ⟨rfl, fun h => ?_⟩
      exact AList.lookup_eq_none.mp hlookup h.job
  | some selected =>
      have hjob : job ∈ s.session.jobs := by
        rw [← AList.lookup_isSome, hlookup]
        rfl
      dsimp only
      simp only [ends_bind, ends_require, ends_ofExcept, ends_update]
      refine ⟨fun hhidden => ?_, fun hhidden => ⟨trivial, fun h => hhidden h.hidden⟩⟩
      cases hnetwork : compactTarget (hex (leBytes 4 nbits.toUInt64).reverse) with
      | error e =>
          refine ⟨trivial, fun h => ?_⟩
          obtain ⟨target, htarget⟩ := h.nbits
          rw [hnetwork] at htarget
          cases htarget
      | ok networkTarget =>
          -- The mutations begin here.
          obtain ⟨header, hheader⟩ :=
            standardWork_total selected.wire.root (hextra hguard.1) hhidden ntime
          dsimp only
          unfold activate
          simp only [ends_bind, ends_getSession, ends_require, ends_update, ends_ofExcept]
          refine ⟨fun _ => ?_, fun hnot => absurd trivial hnot⟩
          rw [hheader]
          exact ⟨hguard.1, hguard.2, hjob, hhidden, networkTarget, hnetwork⟩

/-- A new previous hash is taken over as a whole or not at all, in every state a
session can reach. One that is refused leaves the session as it was, so every job
that was valid still is; and one that passes the checks is never refused afterwards,
though the handler empties the job table before it activates the selected job. -/
theorem prevHash_all_or_nothing (lib : Outside κ) (state : κ) (handshake : Bytes) (t : Terms)
    {s : Live κ} (h : Reachable lib (start state handshake t.host t.port t.user t.rate) s)
    (channel job : UInt32) (hash : Hash) (ntime nbits : UInt32) :
    (∀ e s', apply lib (.prevHash channel job hash ntime nbits) s = .error e s' →
      s' = s ∧ (∀ j, s.session.valid j = true → s'.session.valid j = true) ∧
        ¬ Acceptable s.session channel job hash nbits) ∧
    (Acceptable s.session channel job hash nbits →
      ∃ s', apply lib (.prevHash channel job hash ntime nbits) s = .ok [] s') := by
  have hconduct := conduct_reachable (conduct_start state handshake t) h
  have hends : Ends (apply lib (.prevHash channel job hash ntime nbits))
      (fun out _ => out = [] ∧ Acceptable s.session channel job hash nbits)
      (fun _ s' => s' = s ∧ ¬ Acceptable s.session channel job hash nbits) s := by
    rw [apply, ends_bind]
    refine (prevHash_ends (fun hphase => (hconduct.opened hphase).2) channel job hash ntime
      nbits).mono ?_ fun _ _ h => h
    exact fun _ _ h => ⟨rfl, h⟩
  refine ⟨?_, ?_⟩
  · intro e s' herror
    obtain ⟨rfl, hrefused⟩ := hends.error herror
    exact ⟨rfl, fun _ hj => hj, hrefused⟩
  · intro hacceptable
    cases hresult : apply lib (.prevHash channel job hash ntime nbits) s with
    | ok out s' =>
        obtain ⟨rfl, -⟩ := hends.ok hresult
        exact ⟨s', rfl⟩
    | error e s' => exact absurd hacceptable (hends.error hresult).2

/-- A message as it comes over the wire of the padding cipher. -/
def sampleWire (m : Message) : Bytes :=
  headerBytes (encode m) ++ List.replicate 16 0 ++ m.payload ++ List.replicate 16 0

/-- The calls that open a channel and announce one job for the future. -/
def sampleCalls : List Call :=
  [.receive (List.replicate 234 0), .receive (sampleWire (.setupSuccess 2 0)),
    .receive (sampleWire (.openSuccess 1 7 (Vector.replicate 32 1) [1, 2, 3, 4] 9)),
    .receive (sampleWire (.newJob ⟨7, 5, none, 1, Vector.replicate 32 2⟩))]

def sampleOpen : Live Unit :=
  sampleCalls.foldl (fun s call => left (perform sampleOutside call) s)
    (start () [] sampleTerms.host sampleTerms.port sampleTerms.user sampleTerms.rate)

theorem prevHash_all_or_nothing_sample :
    Acceptable sampleOpen.session 7 5 (Vector.replicate 32 0) 0x1d00ffff ∧
      ∃ s', apply sampleOutside (.prevHash 7 5 (Vector.replicate 32 0) 100 0x1d00ffff) sampleOpen =
        .ok [] s' := by
  have hreachable : Reachable sampleOutside (start () [] sampleTerms.host sampleTerms.port
      sampleTerms.user sampleTerms.rate) sampleOpen :=
    reachable_calls .start sampleCalls
  have hacceptable : Acceptable sampleOpen.session 7 5 (Vector.replicate 32 0) 0x1d00ffff := by
    refine ⟨by decide +kernel, by decide +kernel, ?_, by decide +kernel, ?_⟩
    · exact AList.lookup_isSome.mp (by decide +kernel)
    · have hok : (compactTarget (hex (leBytes 4 (0x1d00ffff : UInt32).toUInt64).reverse)).isOk =
          true := by decide +kernel
      cases htarget : compactTarget (hex (leBytes 4 (0x1d00ffff : UInt32).toUInt64).reverse) with
      | ok target => exact ⟨target, rfl⟩
      | error e =>
          rw [htarget] at hok
          cases hok
  exact ⟨hacceptable,
    (prevHash_all_or_nothing sampleOutside () [] sampleTerms hreachable 7 5 _ 100 _).2 hacceptable⟩

end Live

end Supryolo.Sv2
