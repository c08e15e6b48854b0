import Supryolo.Jobs
import Supryolo.Miner.Accounting

/-!
Jobs on their way through the miner. A job leaves the session when it is
published and travels through a worker and the queue of found shares while the
session moves on. Whatever the interleaving, a job that circulates is one the
session knows, and published work never goes back to an older generation.
-/

namespace Supryolo.Miner

variable {cfg : Config} {κ : Type} {env : Env κ} {m m' : Machine cfg κ} {start : View cfg.rows}

namespace Link

def generation : Link κ → Nat
  | sv1 _ state => state.generation
  | sv2 session => session.generation

def Knows (v : PoolView) : Link κ → Job → Prop
  | sv1 _ state, j => state.Knows v j
  | sv2 session, j => session.Knows j

def Sound (v : PoolView) : Link κ → Prop
  | sv1 _ state => state.Sound v
  | sv2 session => session.Sound

/-- The session still holds the job under its id, with its number. -/
def Stands : Link κ → Job → Prop
  | sv1 _ state, j => state.Stands j
  | sv2 session, j => session.Stands j

def Older : Link κ → Job → Prop
  | sv1 _ state, j => state.Older j
  | sv2 session, j => session.Older j

/-- Whether a job is one of this protocol. -/
def Speaks : Link κ → Job → Prop
  | sv1 _ _, j => j.sv2 = false ∧ 0 < j.generation ∧ j.en2 = StratumState.extraNonce j.generation
  | sv2 _, j => j.sv2 = true

theorem Knows.older {v : PoolView} {link : Link κ} {j : Job} (h : link.Knows v j) :
    link.Older j := by
  cases link with
  | sv1 buffer state => exact StratumState.Knows.older h
  | sv2 session => exact Sv2.Session.Knows.older h

/-- Jobs are numbered from one. -/
theorem Older.numbered {link : Link κ} {j : Job} (h : link.Older j) :
    0 < j.generation ∧ j.generation ≤ link.generation := by
  cases link with
  | sv1 buffer state => exact ⟨StratumState.Older.positive h, StratumState.Older.generation h⟩
  | sv2 session => exact ⟨Sv2.Session.Older.positive h, Sv2.Session.Older.generation h⟩

/-- What the code takes for valid stands, as long as the 64 bits of the
generation have not come round. -/
theorem stands_of_valid {v : PoolView} {link : Link κ} {j : Job} (hsound : link.Sound v)
    (hfew : link.generation ≤ 2 ^ 64) (hold : link.Older j) (hvalid : link.valid j = true) :
    link.Stands j := by
  cases link with
  | sv1 buffer state =>
      exact StratumState.stands_of_valid hfew (StratumState.Sound.numbered hsound) hold hvalid
  | sv2 session =>
      exact Sv2.Session.stands_of_valid hfew (Sv2.Session.Sound.numbered hsound) hold hvalid

theorem Sound.current {v : PoolView} {link : Link κ} (h : link.Sound v) {j : Job}
    (hj : link.current = some j) :
    link.Knows v j ∧ j.generation = link.generation ∧ link.Speaks j := by
  cases link with
  | sv1 buffer state => exact StratumState.Sound.current h j hj
  | sv2 session => exact Sv2.Session.Sound.current h j hj

theorem Sound.fresh {link : Link κ} (h : link.Fresh) : link.Sound {} := by
  cases h with
  | sv1 => exact ⟨rfl, fun id number hlookup => (by cases hlookup), fun j hj => (by cases hj)⟩
  | sv2 state first host port user rate => exact Sv2.Session.sound_start _ _ _ _ _ _

end Link

/-- What the pool knows from the messages that have been handled. -/
def Machine.poolView (m : Machine cfg κ) : PoolView := m.received.foldl PoolView.send {}

/-- A step keeps what the session knows, and the current job changes only
together with the generation. -/
structure Moves (v v' : PoolView) (link link' : Link κ) : Prop where
  sound : link'.Sound v'
  knows : ∀ j, link.Knows v j → link'.Knows v' j
  speaks : ∀ j, link.Speaks j → link'.Speaks j
  generation : link.generation ≤ link'.generation
  current : link'.generation = link.generation → link'.current = link.current

theorem Moves.refl {v : PoolView} {link : Link κ} (hsound : link.Sound v) : Moves v v link link :=
  ⟨hsound, fun _ hj => hj, fun _ hj => hj, le_refl _, fun _ => rfl⟩

theorem read_sv1 {link : Link κ} {chunks : List Bytes} {ending : Ending} {messages : List Json}
    {buffer' : Text} {state' : StratumState}
    (hread : link.read env chunks ending = .ok (messages, .sv1 buffer' state')) :
    ∃ buffer, link = .sv1 buffer state' := by
  unfold Link.read at hread
  cases link with
  | sv1 buffer state =>
      obtain ⟨⟨out, rest⟩, -, hread⟩ := Loops.bind_eq_ok.mp hread
      obtain ⟨-, hnext⟩ := Prod.mk.inj (Loops.pure_eq_ok.mp hread)
      obtain ⟨-, rfl⟩ := Link.sv1.inj hnext
      exact ⟨buffer, rfl⟩
  | sv2 session =>
      obtain ⟨bytes, -, hread⟩ := Loops.bind_eq_ok.mp hread
      obtain ⟨⟨out, next⟩, -, hread⟩ := Loops.bind_eq_ok.mp hread
      cases hread

theorem Moves.read {v : PoolView} {link link' : Link κ} {chunks : List Bytes} {ending : Ending}
    {messages : List Json} (hsound : link.Sound v)
    (hread : link.read env chunks ending = .ok (messages, link')) : Moves v v link link' := by
  cases link' with
  | sv1 buffer' state' =>
      obtain ⟨buffer, rfl⟩ := read_sv1 hread
      exact ⟨hsound, fun _ hj => hj, fun _ hj => hj, le_refl _, fun _ => rfl⟩
  | sv2 session' =>
      obtain ⟨session, bytes, rfl, hreceive⟩ := read_sv2 hread
      obtain ⟨hsound', hknows, hadvances⟩ := Sv2.Session.receive_jobs hsound hreceive
      exact ⟨hsound', hknows, fun _ hj => hj, hadvances.generation, hadvances.current⟩

theorem Step.moves (hstep : Step env m m') (hsound : m.link.Sound m.poolView) :
    Moves m.poolView m'.poolView m.link m'.link := by
  have hkept (hreceived : m'.received = m.received) : m'.poolView = m.poolView := by
    rw [Machine.poolView, hreceived, Machine.poolView]
  have hsent {message : Json} (hreceived : m'.received = m.received ++ [message]) :
      m'.poolView = m.poolView.send message := by
    rw [Machine.poolView, hreceived, List.foldl_append]
    rfl
  cases hstep.effect with
  | idle n hlink hledger hnextId hqueued hreceived =>
      rw [hkept hreceived, hlink]
      exact .refl hsound
  | received chunks ending messages hread hledger hnextId hempty hqueued hreceived =>
      rw [hkept hreceived]
      exact .read hsound hread
  | handledSv1 message buffer state state' job hlink hlink' hreceive hledger hnextId hqueued
      hreceived =>
      rw [hsent hreceived, hlink, hlink']
      rw [hlink] at hsound
      obtain ⟨hsound', hknows, hgeneration, hcurrent⟩ := StratumState.receive_jobs hsound hreceive
      exact ⟨hsound', hknows, fun _ hj => hj, hgeneration, hcurrent⟩
  | handledSv2 message session hlink hlink' hledger hnextId hqueued hreceived =>
      rw [hlink, hlink']
      rw [hlink] at hsound
      exact ⟨hsound, fun _ hj => hj, fun _ hj => hj, le_refl _, fun _ => rfl⟩
  | sentSv1 f n buffer state hcheck hlink hlink' hledger hnextId hempty hqueued hreceived =>
      rw [hkept hreceived, hlink', ← hlink]
      exact .refl hsound
  | sentSv2 f n session session' hcheck hlink hlink' hlimit hsubmit hledger hnextId hempty hqueued
      hreceived =>
      rw [hkept hreceived, hlink, hlink']
      rw [hlink] at hsound
      obtain ⟨hsound', hknows, hadvances⟩ := Sv2.Session.submit_jobs hsound hsubmit
      exact ⟨hsound', hknows, fun _ hj => hj, hadvances.generation, hadvances.current⟩

theorem sound_of_run {link : Link κ} (hlink : link.Fresh) (hrun : Run env link start m) :
    m.link.Sound m.poolView := by
  induction hrun with
  | refl => exact .fresh hlink
  | tail _ hstep ih => exact (hstep.moves ih).sound

/-- A generation that published work does not fall behind. -/
structure Machine.Ahead (m : Machine cfg κ) (g : Nat) : Prop where
  link : g ≤ m.link.generation
  work : ∀ j, m.work = some j → g ≤ j.generation

/-- The one job of its generation. -/
structure Machine.Dated (m : Machine cfg κ) (j : Job) : Prop where
  generation : j.generation ≤ m.link.generation
  unique : ∀ j', m.work = some j' ∨ m.link.current = some j' → j'.generation = j.generation → j' = j

theorem Step.work (hstep : Step env m m') :
    m'.work = m.work ∨ m'.work = m'.link.current := by
  cases hstep.effect with
  | idle n hlink hledger hnextId hqueued hreceived hwork => exact Or.inl hwork
  | received chunks ending messages hread hledger hnextId hempty hqueued hreceived hwork =>
      exact Or.inl hwork
  | handledSv1 message buffer state state' job hlink hlink' hreceive hledger hnextId hqueued
      hreceived hwork => exact hwork
  | handledSv2 message session hlink hlink' hledger hnextId hqueued hreceived hwork => exact hwork
  | sentSv1 f n buffer state hcheck hlink hlink' hledger hnextId hempty hqueued hreceived hwork =>
      exact Or.inl hwork
  | sentSv2 f n session session' hcheck hlink hlink' hlimit hsubmit hledger hnextId hempty hqueued
      hreceived hwork => exact Or.inl hwork

theorem Machine.Ahead.step {g : Nat} (h : m.Ahead g) (hsound : m.link.Sound m.poolView)
    (hstep : Step env m m') : m'.Ahead g := by
  have hmoves := hstep.moves hsound
  have hlink := h.link.trans hmoves.generation
  refine ⟨hlink, ?_⟩
  intro j hj
  rcases hstep.work with hwork | hwork
  · exact h.work j (hwork.symm.trans hj)
  · obtain ⟨-, hlatest, -⟩ := hmoves.sound.current (hwork.symm.trans hj)
    omega

theorem Machine.Dated.step {j : Job} (h : m.Dated j) (hsound : m.link.Sound m.poolView)
    (hstep : Step env m m') : m'.Dated j := by
  have hmoves := hstep.moves hsound
  have hcurrent (j' : Job) (hj' : m'.link.current = some j')
      (hsame : j'.generation = j.generation) : j' = j := by
    obtain ⟨-, hlatest, -⟩ := hmoves.sound.current hj'
    have hbefore := h.generation
    have hgeneration := hmoves.generation
    have hkept := hmoves.current (by omega)
    exact h.unique j' (Or.inr (hkept.symm.trans hj')) hsame
  refine ⟨h.generation.trans hmoves.generation, ?_⟩
  rintro j' (hj' | hj') hsame
  · rcases hstep.work with hwork | hwork
    · exact h.unique j' (Or.inl (hwork.symm.trans hj')) hsame
    · exact hcurrent j' (hwork.symm.trans hj') hsame
  · exact hcurrent j' hj' hsame

/-- Published work is known and the one job of its generation. -/
structure Machine.Published (m : Machine cfg κ) : Prop where
  knows : ∀ j, m.work = some j → m.link.Knows m.poolView j
  speaks : ∀ j, m.work = some j → m.link.Speaks j
  dated : ∀ j, m.work = some j → m.Dated j

theorem Machine.Published.step (h : m.Published) (hsound : m.link.Sound m.poolView)
    (hstep : Step env m m') : m'.Published := by
  have hmoves := hstep.moves hsound
  have hcurrent {j : Job} (hj : m'.link.current = some j) := hmoves.sound.current hj
  refine ⟨?_, ?_, ?_⟩
  · intro j hj
    rcases hstep.work with hwork | hwork
    · exact hmoves.knows j (h.knows j (hwork.symm.trans hj))
    · exact (hcurrent (hwork.symm.trans hj)).1
  · intro j hj
    rcases hstep.work with hwork | hwork
    · exact hmoves.speaks j (h.speaks j (hwork.symm.trans hj))
    · exact (hcurrent (hwork.symm.trans hj)).2.2
  · intro j hj
    rcases hstep.work with hwork | hwork
    · exact (h.dated j (hwork.symm.trans hj)).step hsound hstep
    · have hlatest := hwork.symm.trans hj
      refine ⟨(hcurrent hlatest).2.1.le, ?_⟩
      rintro j' (hj' | hj') -
      · exact Option.some.inj (hj'.symm.trans hj)
      · exact Option.some.inj (hj'.symm.trans hlatest)

theorem published_of_run {link : Link κ} (hlink : link.Fresh) (hrun : Run env link start m) :
    m.Published := by
  induction hrun with
  | refl =>
      have hnone {j : Job} : (Machine.initial cfg link start).work ≠ some j := by
        intro hj
        cases hj
      exact ⟨fun _ hj => absurd hj hnone, fun _ hj => absurd hj hnone, fun _ hj => absurd hj hnone⟩
  | tail hbefore hstep ih => exact ih.step (sound_of_run hlink hbefore) hstep

end Supryolo.Miner
