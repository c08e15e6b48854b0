import Supryolo.Documents
import Supryolo.Lib.Http

/-!
Model of `api.cpp`: the document in which the statistics are served, and the
thread that answers one client after the other while the mining thread
publishes new ones.
-/

namespace Supryolo.Api

open Json Loops Http

/-- The doubles, with what `dump` writes for them. -/
structure Floats (F : Type) where
  zero : F
  dump : F → Text
  truncated : F → Int

structure DeviceView (F : Type) where
  label : Text
  name : Text
  pciBus : Text := []
  hashesPerSecond : F
  hashes : UInt64 := 0
  accepted : UInt64 := 0
  rejected : UInt64 := 0
  stale : UInt64 := 0
  temperature : Option UInt32 := none
  fanPercent : Option UInt32 := none

/-- What the statistics take from a `DashboardView`. -/
structure View (F : Type) where
  coin : Text := "BTCB2".toList
  state : Text := "CONNECTING".toList
  elapsed : F
  hashes : UInt64 := 0
  accepted : UInt64 := 0
  rejected : UInt64 := 0
  stale : UInt64 := 0
  blockCandidates : UInt64 := 0
  pending : UInt64 := 0
  devices : List (DeviceView F) := []

variable {F : Type}

def Floats.json (fl : Floats F) (x : F) : Json := .float (fl.dump x) (fl.truncated x)

def count (n : UInt64) : Json := .integer n.toNat

def reading (n : Option UInt32) : Json :=
  match n with
  | some n => .integer n.toNat
  | none => .null

def apiDevice (fl : Floats F) (d : DeviceView F) : Json :=
  .object [("accepted".toList, count d.accepted), ("fan".toList, reading d.fanPercent),
    ("hashes".toList, count d.hashes), ("hashrate".toList, fl.json d.hashesPerSecond),
    ("label".toList, .string d.label), ("name".toList, .string d.name),
    ("pci_bus".toList, .string d.pciBus), ("rejected".toList, count d.rejected),
    ("stale".toList, count d.stale), ("temperature".toList, reading d.temperature)]

/-- The members stand in the order of their keys. -/
def apiSnapshot (fl : Floats F) (v : View F) : Json :=
  .object [("accepted".toList, count v.accepted),
    ("block_candidates".toList, count v.blockCandidates), ("coin".toList, .string v.coin),
    ("devices".toList, .array (v.devices.map (apiDevice fl))), ("hashes".toList, count v.hashes),
    ("pending".toList, count v.pending), ("rejected".toList, count v.rejected),
    ("stale".toList, count v.stale), ("state".toList, .string v.state),
    ("uptime".toList, fl.json v.elapsed), ("version".toList, .string "0.2.1".toList)]

def Complete (request : Text) : Prop := "\r\n\r\n".toList <:+: request

/-- The beginnings of the requests that are served. -/
def Asks (request : Text) : Prop :=
  "GET /summary HTTP/1.".toList <+: request ∨ "GET / HTTP/1.".toList <+: request

instance (request : Text) : Decidable (Complete request) := by
  unfold Complete
  infer_instance

instance (request : Text) : Decidable (Asks request) := by
  unfold Asks
  infer_instance

/-- The headers between the status and the length. -/
def headers : Text :=
  ("\r\nContent-Type: application/json\r\nCache-Control: no-store\r\n" ++
    "Connection: close\r\nContent-Length: ").toList

def reply (status body : Text) : Text :=
  "HTTP/1.1 ".toList ++ status ++ headers ++ Nat.toDigits 10 body.length ++ "\r\n\r\n".toList ++ body

def notFound : Text := "\x7b\"error\":\"not found\"\x7d".toList

/-- The statistics are dumped under the mutex. -/
def answer (snapshot : Json) (request : Text) : Except String Text :=
  if Complete request ∧ Asks request then do
    let body ← snapshot.dump
    pure (reply "200 OK".toList body)
  else pure (reply "404 Not Found".toList notFound)

/-- What the thread is doing. An exception in it ends the whole program. -/
inductive Phase
  | listening
  | reading (request : Text)
  | replying (request reply : Text) (off : Nat)
  | terminated

/-- A connection that has been closed. -/
structure Served where
  request : Text
  reply : Text
  sent : Text

structure Server where
  snapshot : Json
  phase : Phase := .listening
  served : List Served := []

/-- Reading and sending may end at any time: the client closes the connection or
is too slow. -/
inductive Action (F : Type)
  | update (v : View F)
  | accept
  | recv (bytes : Text)
  | answer
  | send (n : Nat)
  | close

def Server.step (fl : Floats F) (s : Server) (action : Action F) : Option Server :=
  match action, s.phase with
  | .update _, .terminated => none
  | .update v, _ => some { s with snapshot := apiSnapshot fl v }
  | .accept, .listening => some { s with phase := .reading [] }
  | .recv bytes, .reading request =>
      if request.length < 4096 ∧ ¬ Complete request ∧ bytes ≠ [] ∧ bytes.length ≤ 1024 then
        some { s with phase := .reading (request ++ bytes) }
      else none
  | .answer, .reading request =>
      match Api.answer s.snapshot request with
      | .ok reply => some { s with phase := .replying request reply 0 }
      | .error _ => some { s with phase := .terminated }
  | .send n, .replying request reply off =>
      if 0 < n ∧ off + n ≤ reply.length then
        some { s with phase := .replying request reply (off + n) }
      else none
  | .close, .replying request reply off =>
      some { s with phase := .listening, served := s.served ++ [⟨request, reply, reply.take off⟩] }
  | _, _ => none

def Server.start (fl : Floats F) : Server where
  snapshot := apiSnapshot fl { elapsed := fl.zero }

def Server.run (fl : Floats F) (actions : List (Action F)) : Option Server :=
  actions.foldlM (Server.step fl) (Server.start fl)

/-- The bytes received. -/
def received (actions : List (Action F)) : Text :=
  actions.flatMap fun
    | .recv bytes => bytes
    | _ => []

/-- The statistics published last, or the ones the server starts with. -/
def published (fl : Floats F) (actions : List (Action F)) : View F :=
  actions.foldl (fun view action => match action with
    | .update v => v
    | _ => view) { elapsed := fl.zero }

structure View.Utf8 (v : View F) : Prop where
  coin : IsUtf8 v.coin
  state : IsUtf8 v.state
  devices : ∀ d ∈ v.devices, IsUtf8 d.label ∧ IsUtf8 d.name ∧ IsUtf8 d.pciBus

theorem count_spelled (n : UInt64) : (count n).All Spelled := trivial

theorem reading_spelled (n : Option UInt32) : (reading n).All Spelled := by
  cases n <;> exact trivial

theorem apiDevice_spelled (fl : Floats F) {d : DeviceView F}
    (h : IsUtf8 d.label ∧ IsUtf8 d.name ∧ IsUtf8 d.pciBus) : (apiDevice fl d).All Spelled := by
  obtain ⟨hlabel, hname, hbus⟩ := h
  apply spelled_object
  · simp only [List.forall_mem_cons]
    simp
  · simp only [List.forall_mem_cons]
    exact ⟨count_spelled _, reading_spelled _, count_spelled _, trivial, hlabel, hname, hbus,
      count_spelled _, count_spelled _, reading_spelled _, by simp⟩

theorem apiSnapshot_spelled (fl : Floats F) {v : View F} (h : v.Utf8) :
    (apiSnapshot fl v).All Spelled := by
  have hdevices : (Json.array (v.devices.map (apiDevice fl))).All Spelled := by
    refine ⟨trivial, all_items.mpr fun item hitem => ?_⟩
    obtain ⟨d, hd, rfl⟩ := List.mem_map.mp hitem
    exact apiDevice_spelled fl (h.devices d hd)
  apply spelled_object
  · simp only [List.forall_mem_cons]
    simp
  · simp only [List.forall_mem_cons]
    exact ⟨count_spelled _, count_spelled _, h.coin, hdevices, count_spelled _, count_spelled _,
      count_spelled _, count_spelled _, h.state, trivial, isUtf8_ascii (by simp), by simp⟩

theorem published_concat (fl : Floats F) (actions : List (Action F)) (a : Action F) :
    published fl (actions ++ [a]) = match a with
      | .update v => v
      | _ => published fl actions := by
  rw [published, List.foldl_append]
  rfl

theorem received_concat (actions : List (Action F)) (a : Action F) :
    received (actions ++ [a]) = received actions ++ received [a] := List.flatMap_append ..

/-- What may happen while a request is read, and while the reply is sent. -/
def Action.Reads : Action F → Prop
  | .update _ | .recv _ => True
  | _ => False

def Action.Sends : Action F → Prop
  | .update _ | .send _ => True
  | _ => False

/-- A client that has been accepted and has sent its request. -/
structure Asked (reading : List (Action F)) (request : Text) : Prop where
  reads : ∀ a ∈ reading, a.Reads
  heard : request = received reading
  bounded : request.length < 5120

/-- The reply is made of the statistics published last before it. -/
structure Answered (fl : Floats F) (earlier reading sending : List (Action F))
    (request reply : Text) : Prop extends Asked reading request where
  sends : ∀ a ∈ sending, a.Sends
  answered : answer (apiSnapshot fl (published fl (earlier ++ .accept :: reading))) request = .ok reply

/-- How far the client at hand has got. -/
def Phase.Stands (fl : Floats F) (actions : List (Action F)) : Phase → Prop
  | .listening => True
  | .terminated => False
  | .reading request => ∃ earlier reading, actions = earlier ++ .accept :: reading ∧
      Asked reading request
  | .replying request reply _ => ∃ earlier reading sending,
      actions = earlier ++ .accept :: (reading ++ .answer :: sending) ∧
        Answered fl earlier reading sending request reply

/-- Where in the run a client was served. -/
def Served.Stands (fl : Floats F) (actions : List (Action F)) (c : Served) : Prop :=
  ∃ earlier reading sending later,
    actions = earlier ++ .accept :: (reading ++ .answer :: (sending ++ .close :: later)) ∧
      Answered fl earlier reading sending c.request c.reply ∧ c.sent <+: c.reply

structure Server.Kept (fl : Floats F) (actions : List (Action F)) (s : Server) : Prop where
  snapshot : s.snapshot = apiSnapshot fl (published fl actions)
  phase : s.phase.Stands fl actions
  served : ∀ c ∈ s.served, c.Stands fl actions

theorem Served.Stands.concat {fl : Floats F} {actions : List (Action F)} {c : Served}
    (h : c.Stands fl actions) (a : Action F) : c.Stands fl (actions ++ [a]) := by
  obtain ⟨earlier, reading, sending, later, rfl, hanswered, hsent⟩ := h
  exact ⟨earlier, reading, sending, later ++ [a], by simp, hanswered, hsent⟩

/-- What an action can do. -/
inductive Server.Moves (fl : Floats F) (s : Server) : Action F → Server → Prop
  | update (v : View F) (hphase : s.phase ≠ .terminated) :
      Moves fl s (.update v) { s with snapshot := apiSnapshot fl v }
  | accept (hphase : s.phase = .listening) : Moves fl s .accept { s with phase := .reading [] }
  | recv (request bytes : Text) (hphase : s.phase = .reading request)
      (hlength : request.length < 4096 ∧ bytes.length ≤ 1024) (hgoes : ¬ Complete request) :
      Moves fl s (.recv bytes) { s with phase := .reading (request ++ bytes) }
  | answer (request reply : Text) (hphase : s.phase = .reading request)
      (hanswer : Api.answer s.snapshot request = .ok reply) :
      Moves fl s .answer { s with phase := .replying request reply 0 }
  | terminate (request : Text) (hphase : s.phase = .reading request)
      (hanswer : ∀ reply, Api.answer s.snapshot request ≠ .ok reply) :
      Moves fl s .answer { s with phase := .terminated }
  | send (request reply : Text) (off n : Nat) (hphase : s.phase = .replying request reply off) :
      Moves fl s (.send n) { s with phase := .replying request reply (off + n) }
  | close (request reply : Text) (off : Nat) (hphase : s.phase = .replying request reply off) :
      Moves fl s .close
        { s with phase := .listening, served := s.served ++ [⟨request, reply, reply.take off⟩] }

theorem Server.moves_of_step {fl : Floats F} {s next : Server} {a : Action F}
    (h : s.step fl a = some next) : s.Moves fl a next := by
  unfold step at h
  split at h
  · cases h
  · rename_i hphase
    obtain rfl := Option.some.inj h
    exact .update _ hphase
  · rename_i hphase
    obtain rfl := Option.some.inj h
    exact .accept hphase
  · rename_i hphase
    split_ifs at h with hgoes
    obtain rfl := Option.some.inj h
    exact .recv _ _ hphase ⟨hgoes.1, hgoes.2.2.2⟩ hgoes.2.1
  · rename_i hphase
    split at h
    · rename_i hanswer
      obtain rfl := Option.some.inj h
      exact .answer _ _ hphase hanswer
    · rename_i hanswer
      obtain rfl := Option.some.inj h
      refine .terminate _ hphase fun reply hreply => ?_
      rw [hreply] at hanswer
      cases hanswer
  · rename_i hphase
    split_ifs at h
    obtain rfl := Option.some.inj h
    exact .send _ _ _ _ hphase
  · rename_i hphase
    obtain rfl := Option.some.inj h
    exact .close _ _ _ hphase
  · cases h

theorem Asked.concat {reading : List (Action F)} {request : Text} (h : Asked reading request)
    (a : Action F) (ha : a.Reads) {bytes : Text} (hbytes : received [a] = bytes)
    (hbounded : (request ++ bytes).length < 5120) : Asked (reading ++ [a]) (request ++ bytes) where
  reads := by
    intro b hb
    rcases List.mem_append.mp hb with hb | hb
    · exact h.reads b hb
    · rwa [List.mem_singleton.mp hb]
  heard := by
    rw [h.heard, ← hbytes, received_concat]
  bounded := hbounded

theorem Answered.concat {fl : Floats F} {earlier reading sending : List (Action F)}
    {request reply : Text} (h : Answered fl earlier reading sending request reply) (a : Action F)
    (ha : a.Sends) : Answered fl earlier reading (sending ++ [a]) request reply where
  toAsked := h.toAsked
  sends := by
    intro b hb
    rcases List.mem_append.mp hb with hb | hb
    · exact h.sends b hb
    · rwa [List.mem_singleton.mp hb]
  answered := h.answered

theorem answer_ok (fl : Floats F) {v : View F} (h : v.Utf8) (request : Text) :
    ∃ reply, answer (apiSnapshot fl v) request = .ok reply := by
  unfold answer
  split_ifs
  · obtain ⟨body, hbody⟩ := dump_of_spelled (apiSnapshot_spelled fl h)
    exact ⟨_, bind_eq_ok.mpr ⟨body, hbody, rfl⟩⟩
  · exact ⟨_, rfl⟩

/-- Publishing does not disturb the client at hand. -/
theorem Phase.Stands.update {fl : Floats F} {actions : List (Action F)} {phase : Phase}
    (h : phase.Stands fl actions) (v : View F) : phase.Stands fl (actions ++ [.update v]) := by
  cases phase with
  | listening => trivial
  | terminated => exact h
  | reading request =>
      obtain ⟨earlier, reading, rfl, hasked⟩ := h
      have hnothing : received [Action.update v] = [] := by simp [received]
      have hmore := hasked.concat (.update v) trivial hnothing (by simpa using hasked.bounded)
      rw [List.append_nil] at hmore
      exact ⟨earlier, reading ++ [.update v], by simp, hmore⟩
  | replying request reply off =>
      obtain ⟨earlier, reading, sending, rfl, hanswered⟩ := h
      exact ⟨earlier, reading, sending ++ [.update v], by simp, hanswered.concat (.update v) trivial⟩

/-- An action that publishes nothing and serves no client to the end. -/
theorem Server.Kept.proceed {fl : Floats F} {actions : List (Action F)} {s next : Server}
    {a : Action F} (h : s.Kept fl actions)
    (hpublished : published fl (actions ++ [a]) = published fl actions)
    (hsnapshot : next.snapshot = s.snapshot) (hserved : next.served = s.served)
    (hphase : next.phase.Stands fl (actions ++ [a])) : next.Kept fl (actions ++ [a]) where
  snapshot := by rw [hsnapshot, hpublished, h.snapshot]
  phase := hphase
  served := by
    intro c hc
    rw [hserved] at hc
    exact (h.served c hc).concat a

theorem Server.Kept.step {fl : Floats F} {actions : List (Action F)} {s next : Server}
    {a : Action F} (h : s.Kept fl actions) (hview : (published fl actions).Utf8)
    (hstep : s.step fl a = some next) : next.Kept fl (actions ++ [a]) := by
  have hserved : ∀ c ∈ s.served, c.Stands fl (actions ++ [a]) := fun c hc => (h.served c hc).concat a
  have hpublished := published_concat fl actions a
  have hstands := h.phase
  cases Server.moves_of_step hstep with
  | update v hrunning => exact ⟨by rw [hpublished], h.phase.update v, hserved⟩
  | accept hlistening =>
      exact h.proceed hpublished rfl rfl ⟨actions, [], rfl, by simp, rfl, by decide⟩
  | recv request bytes hreading hlength hgoes =>
      refine h.proceed hpublished rfl rfl ?_
      rw [hreading] at hstands
      obtain ⟨earlier, reading, rfl, hasked⟩ := hstands
      have hbounded : (request ++ bytes).length < 5120 := by
        rw [List.length_append]
        omega
      exact ⟨earlier, reading ++ [.recv bytes], by simp,
        hasked.concat (.recv bytes) trivial (by simp [received]) hbounded⟩
  | answer request reply hreading hanswer =>
      refine h.proceed hpublished rfl rfl ?_
      rw [hreading] at hstands
      obtain ⟨earlier, reading, rfl, hasked⟩ := hstands
      rw [h.snapshot] at hanswer
      exact ⟨earlier, reading, [], by simp, hasked, by simp, hanswer⟩
  | terminate request hreading hanswer =>
      obtain ⟨reply, hreply⟩ := answer_ok fl hview request
      rw [← h.snapshot] at hreply
      exact absurd hreply (hanswer reply)
  | send request reply off n hreplying =>
      refine h.proceed hpublished rfl rfl ?_
      rw [hreplying] at hstands
      obtain ⟨earlier, reading, sending, rfl, hanswered⟩ := hstands
      exact ⟨earlier, reading, sending ++ [.send n], by simp, hanswered.concat (.send n) trivial⟩
  | close request reply off hreplying =>
      refine ⟨h.snapshot.trans (by rw [hpublished]), trivial, ?_⟩
      rw [hreplying] at hstands
      obtain ⟨earlier, reading, sending, rfl, hanswered⟩ := hstands
      intro c hc
      rcases List.mem_append.mp hc with hc | hc
      · exact hserved c hc
      · rw [List.mem_singleton.mp hc]
        exact ⟨earlier, reading, sending, [], by simp, hanswered, List.take_prefix _ _⟩

end Supryolo.Api
