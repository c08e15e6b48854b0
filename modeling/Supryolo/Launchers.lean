import Supryolo.Admission

/-!
Model of the launchers in `packaging`: the arguments they run the miner with.
Words the user adds are what Python's and the shell's own splitting made of
them. Whatever they are, a miner that is launched keeps what its launcher
depends on.
-/

namespace Supryolo.Launchers

open CommandLine Directives Loops

variable {stod : Stod} {o : MineOptions} {p p' : Parsed}

/-- `h-config.sh`, given the words of `CUSTOM_URL` and of `CUSTOM_USER_CONFIG`. -/
def hiveConfig (urls : List Text) (user password : Text) (userConfig : List Text) :
    Except String (List Text) :=
  match urls with
  | [url] =>
      let url := if "://".toList <:+: url then url else "stratum+tcp://".toList ++ url
      if user = [] ∨ '%' ∈ user then
        throw "Set Wallet and worker template, e.g. %WAL%.%WORKER_NAME%"
      else
        pure (["--url".toList, url, "--user".toList, user, "--password".toList, password,
          "--no-cpu".toList] ++ userConfig ++ ["--api-port".toList, "4068".toList])
  | _ => throw "supryolo requires exactly one pool URL"

/-- `h-launch.py` -/
def hiveLaunch (args : List Text) (logFile : Text) : List Text :=
  args ++ ["--log-file".toList, logFile]

/-- What `argparse` makes of the arguments of `mmp-launch.py`, with the words it
does not know. -/
structure MmpArguments where
  coin : Text
  pool : Text
  poolProtocol : Text
  user : Text
  password : Text
  apiPort : Int
  extra : List Text

/-- `mmp-launch.py`; `lower` is `str.lower`. -/
def mmpLaunch (lower : Text → Text) (a : MmpArguments) : Except String (List Text) :=
  if ["btcb2".toList, "b2".toList, "blake2b".toList].contains (lower a.coin) = false then
    throw "Only BTCB2 BLAKE2b is supported; select the correct coin"
  else if a.apiPort ≠ 4068 then
    throw "Custom integration uses API port 4068; set it in the profile"
  else
    let url :=
      if "://".toList <:+: a.pool then a.pool
      else "stratum+".toList ++ a.poolProtocol ++ "://".toList ++ a.pool
    let devices :=
      if a.extra.contains "--no-gpu".toList || a.extra.contains "--cpu".toList then []
      else ["--no-cpu".toList]
    pure (["--url".toList, url, "--user".toList, a.user, "--password".toList, a.password] ++
      devices ++ a.extra ++ ["--api-port".toList, "4068".toList])

/-- No setting touches the switches. -/
theorem noCpu_set {o' : MineOptions} {setting : Setting} {value : Text}
    (h : o.set stod setting value = .ok o') : o'.noCpu = o.noCpu := by
  cases setting with
  | gpuDevice =>
      obtain ⟨values, -, h⟩ := bind_eq_ok.mp h
      obtain ⟨-, h⟩ := guard_eq_ok.mp h
      obtain rfl := pure_eq_ok.mp h
      rfl
  | batch | cpuBatch | seconds =>
      obtain ⟨n, -, h⟩ := bind_eq_ok.mp h
      obtain ⟨-, h⟩ := guard_eq_ok.mp h
      obtain rfl := pure_eq_ok.mp h
      rfl
  | cpuThreads | block | openclVariant | variant | apiPort | gpuCoreClock | gpuMemClock | powerlimit
  | gpuFanSpeed | gpuTempWarn | gpuTempAlarm =>
      obtain ⟨n, -, h⟩ := bind_eq_ok.mp h
      obtain rfl := pure_eq_ok.mp h
      rfl
  | _ =>
      obtain rfl := pure_eq_ok.mp h
      rfl

/-- `--no-cpu` cannot be taken back. -/
theorem noCpu_perform {directives : List (Directive Text Switch Setting)} (h : p.o.noCpu = true)
    (hperform : directives.foldlM (perform (grammar stod)) p = .ok p') : p'.o.noCpu = true := by
  refine foldlM_invariant (I := fun p : Parsed => p.o.noCpu = true) ?_ h hperform
  intro p directive p' h hperform
  cases directive with
  | flip switch =>
      obtain rfl := pure_eq_ok.mp hperform
      cases switch with
      | noCpu => rfl
      | _ => exact h
  | set setting value =>
      obtain ⟨o, hset, hperform⟩ := bind_eq_ok.mp hperform
      obtain rfl := pure_eq_ok.mp hperform
      exact (noCpu_set hset).trans h

/-- Words that begin with four options and end with the port of the statistics:
the options of the user stand between them and cannot reach beyond. -/
theorem read_between {url user password : Text} {extra rest : List Text}
    {directives : List (Directive Text Switch Setting)}
    (h : Spells (grammar stod) directives (["--url".toList, url, "--user".toList, user,
      "--password".toList, password] ++ extra ++ "--api-port".toList :: "4068".toList :: rest)) :
    ∃ between later, directives = [.set .url url, .set .user user, .set .password password] ++
        between ++ .set .apiPort "4068".toList :: later ∧
      Spells (grammar stod) between extra ∧ Spells (grammar stod) later rest := by
  have hvalue : (grammar stod).role "4068".toList = .unknown := rfl
  have hword : (grammar stod).role "--api-port".toList = .setting .apiPort := rfl
  obtain ⟨earlier, p, later, rfl, hport, hearlier, hlater⟩ := h.sync hvalue
  obtain rfl := Role.setting.inj (hport.symm.trans hword)
  obtain ⟨users, rfl, husers⟩ := hearlier.set_front (rfl : role "--url".toList = .setting .url)
  obtain ⟨passwords, rfl, hpasswords⟩ := husers.set_front (rfl : role "--user".toList = .setting .user)
  obtain ⟨between, rfl, hbetween⟩ :=
    hpasswords.set_front (rfl : role "--password".toList = .setting .password)
  exact ⟨between, later, rfl, hbetween, hlater⟩

/-- The port is 4068 where a launcher puts it behind the options of the user,
and these have been performed before. -/
theorem port_between {url user password : Text} (extra rest : List Text)
    (h : dispatch stod (["--url".toList, url, "--user".toList, user, "--password".toList, password] ++
      extra ++ "--api-port".toList :: "4068".toList :: rest) = .ok (.mine o)) :
    o.Minable ∧ ∃ between later before, Spells (grammar stod) between extra ∧
      Spells (grammar stod) later rest ∧
      between.foldlM (perform (grammar stod))
        { o := { url := url, user := user, password := password } } = .ok before ∧
      ∃ p, later.foldlM (perform (grammar stod))
        { before with o := { before.o with apiPort := 4068 } } = .ok p ∧ p.o = o := by
  obtain ⟨p, hscan, hp, hminable⟩ := minable_of_dispatch h
  obtain ⟨directives, hspells, hperform⟩ := scan_eq_some.mp hscan
  obtain ⟨between, later, rfl, hbetween, hlater⟩ := read_between hspells
  rw [List.foldlM_append, List.foldlM_append] at hperform
  obtain ⟨before, hbefore, hperform⟩ := bind_eq_ok.mp hperform
  obtain ⟨opened, hopened, hbefore⟩ := bind_eq_ok.mp hbefore
  have hfirst : [Directive.set .url url, .set .user user, .set .password password].foldlM
      (perform (grammar stod)) {} = .ok { o := { url := url, user := user, password := password } } :=
    rfl
  obtain rfl := Except.ok.inj (hopened.symm.trans hfirst)
  obtain ⟨ported, hport, hperform⟩ := bind_eq_ok.mp hperform
  have hset : perform (grammar stod) before (.set .apiPort "4068".toList) =
      .ok { before with o := { before.o with apiPort := 4068 } } := by
    have hvalue : before.o.set stod .apiPort "4068".toList = .ok { before.o with apiPort := 4068 } :=
      rfl
    simp only [perform, grammar, Parsed.set, hvalue, ok_bind]
    simp [pure, Except.pure]
  obtain rfl := Except.ok.inj (hport.symm.trans hset)
  exact ⟨hminable, between, later, before, hbetween, hlater, hbefore, p, hperform, hp⟩

theorem hive_keeps {urls : List Text} {user password logFile : Text} {userConfig args : List Text}
    (hconfig : hiveConfig urls user password userConfig = .ok args)
    (h : dispatch stod (hiveLaunch args logFile) = .ok (.mine o)) :
    o.apiPort = 4068 ∧ o.logFile = logFile ∧ o.noCpu = true ∧ o.noGpu = false := by
  obtain ⟨url, rfl⟩ : ∃ url, urls = [url] := by
    unfold hiveConfig at hconfig
    split at hconfig
    · exact ⟨_, rfl⟩
    · cases hconfig
  obtain ⟨-, hconfig⟩ := guard_eq_ok.mp hconfig
  obtain rfl := pure_eq_ok.mp hconfig
  rw [hiveLaunch, List.append_assoc, List.append_assoc] at h
  obtain ⟨hminable, between, later, before, hbetween, hlater, hbefore, p, hperform, rfl⟩ :=
    port_between ("--no-cpu".toList :: userConfig) ["--log-file".toList, logFile] h
  obtain ⟨own, rfl, -⟩ := hbetween.flip_front (rfl : role "--no-cpu".toList = .switch .noCpu)
  obtain ⟨none, rfl, hnone⟩ := hlater.set_front (rfl : role "--log-file".toList = .setting .logFile)
  cases hnone
  obtain ⟨first, hfirst, hbefore⟩ := bind_eq_ok.mp hbefore
  obtain rfl := pure_eq_ok.mp hfirst
  have hnoCpu : before.o.noCpu = true := noCpu_perform rfl hbefore
  obtain ⟨last, hlast, hperform⟩ := bind_eq_ok.mp hperform
  obtain rfl := pure_eq_ok.mp hlast
  obtain rfl := pure_eq_ok.mp hperform
  refine ⟨rfl, rfl, hnoCpu, ?_⟩
  cases hnoGpu : before.o.noGpu with
  | false => rfl
  | true => exact absurd ⟨hnoCpu, hnoGpu⟩ hminable.devices

theorem mmp_keeps {lower : Text → Text} {a : MmpArguments} {args : List Text}
    (hlaunch : mmpLaunch lower a = .ok args) (h : dispatch stod args = .ok (.mine o)) :
    o.apiPort = 4068 ∧ (o.noCpu = true ∨ "--no-gpu".toList ∈ a.extra ∨ "--cpu".toList ∈ a.extra) := by
  obtain ⟨-, hlaunch⟩ := guard_eq_ok.mp hlaunch
  obtain ⟨-, hlaunch⟩ := guard_eq_ok.mp hlaunch
  obtain rfl := pure_eq_ok.mp hlaunch
  rw [List.append_assoc, List.append_assoc, ← List.append_assoc _ a.extra,
    ← List.append_assoc] at h
  obtain ⟨-, between, later, before, hbetween, hlater, hbefore, p, hperform, rfl⟩ :=
    port_between _ [] h
  cases hlater
  obtain rfl := pure_eq_ok.mp hperform
  refine ⟨rfl, ?_⟩
  by_cases hchoice : (a.extra.contains "--no-gpu".toList || a.extra.contains "--cpu".toList) = true
  · rw [Bool.or_eq_true, List.contains_iff_mem, List.contains_iff_mem] at hchoice
    exact Or.inr hchoice
  · rw [if_neg hchoice] at hbetween
    obtain ⟨own, rfl, -⟩ := hbetween.flip_front (rfl : role "--no-cpu".toList = .switch .noCpu)
    obtain ⟨first, hfirst, hbefore⟩ := bind_eq_ok.mp hbefore
    obtain rfl := pure_eq_ok.mp hfirst
    have hnoCpu : before.o.noCpu = true := noCpu_perform rfl hbefore
    exact Or.inl hnoCpu

/-- Whatever words the user adds, a miner that is launched reports its
statistics on the port its launcher asks. Under HiveOS it also writes the log
the launcher names and mines on the GPUs alone, and under mmpOS the CPU mines
only where the words name it. -/
theorem launchers_keep (stod : Stod) :
    (∀ urls user password userConfig logFile args o,
      hiveConfig urls user password userConfig = .ok args →
      dispatch stod (hiveLaunch args logFile) = .ok (.mine o) →
      o.apiPort = 4068 ∧ o.logFile = logFile ∧ o.noCpu = true ∧ o.noGpu = false) ∧
    ∀ lower a args o, mmpLaunch lower a = .ok args → dispatch stod args = .ok (.mine o) →
      o.apiPort = 4068 ∧
        (o.noCpu = true ∨ "--no-gpu".toList ∈ a.extra ∨ "--cpu".toList ∈ a.extra) := by
  constructor
  · intro urls user password userConfig logFile args o hconfig h
    exact hive_keeps hconfig h
  · intro lower a args o hlaunch h
    exact mmp_keeps hlaunch h

theorem launchers_keep_sample :
    ∃ args o, hiveConfig ["de.b2pool.io:4444".toList] "bc1q.rig".toList "x".toList
        ["--gpu-device".toList, "1,0".toList, "--api-port".toList, "80".toList] = .ok args ∧
      dispatch (fun _ => throw "stod") (hiveLaunch args "run.log".toList) = .ok (.mine o) ∧
      o.url = "stratum+tcp://de.b2pool.io:4444".toList ∧ o.devices = [1, 0] ∧ o.apiPort = 4068 ∧
      o.logFile = "run.log".toList ∧ o.noCpu = true ∧ o.noGpu = false := by
  let args := ["--url".toList, "stratum+tcp://de.b2pool.io:4444".toList, "--user".toList,
    "bc1q.rig".toList, "--password".toList, "x".toList, "--no-cpu".toList, "--gpu-device".toList,
    "1,0".toList, "--api-port".toList, "80".toList, "--api-port".toList, "4068".toList]
  let o : MineOptions :=
    { url := "stratum+tcp://de.b2pool.io:4444".toList, user := "bc1q.rig".toList, noCpu := true
      devices := [1, 0], devicesExplicit := true, apiPort := 4068, logFile := "run.log".toList }
  have hconfig : hiveConfig ["de.b2pool.io:4444".toList] "bc1q.rig".toList "x".toList
      ["--gpu-device".toList, "1,0".toList, "--api-port".toList, "80".toList] = .ok args := by
    decide
  have h : dispatch (fun _ => throw "stod") (hiveLaunch args "run.log".toList) = .ok (.mine o) :=
    rfl
  have hkeeps := (launchers_keep fun _ => throw "stod").1 _ _ _ _ _ _ _ hconfig h
  exact ⟨args, o, hconfig, h, rfl, rfl, hkeeps⟩

end Supryolo.Launchers
