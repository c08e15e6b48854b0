import Supryolo.CommandLine

/-!
What the command line can ask for. Every option is checked where it is read, so
a scan that gets to the end leaves options within their ranges; and whatever is
within the ranges can be asked for. Both hold whatever characters the words of a
command line may be made of.
-/

namespace Supryolo.CommandLine

open Directives Loops

/-- The characters the words of a command line may have. Those of a process have
all but NUL. -/
structure Alphabet where
  allows : Char → Prop
  printable : ∀ c : Char, 32 ≤ c.toNat → c.toNat < 127 → allows c

/-- All characters. -/
def Alphabet.any : Alphabet where
  allows _ := True
  printable _ _ _ := trivial

def Alphabet.Word (A : Alphabet) (text : Text) : Prop := ∀ c ∈ text, A.allows c

variable {A : Alphabet} {stod : Stod} {o o' : MineOptions} {p p' : Parsed}

/-- The options that are texts as they were given. -/
def MineOptions.texts (o : MineOptions) : List Text :=
  [o.gpuMode, o.cpuVariant, o.sv2Authority, o.url, o.user, o.logFile, o.password]

/-- What the options are read as. -/
structure MineOptions.InRange (A : Alphabet) (stod : Stod) (o : MineOptions) : Prop where
  texts : ∀ text ∈ o.texts, A.Word text
  tui : o.tui = "auto".toList ∨ o.tui = "on".toList ∨ o.tui = "off".toList
  devices : (o.devicesExplicit = false ∧ o.devices = []) ∨
    (o.devicesExplicit = true ∧ o.devices ≠ [] ∧ o.devices.Nodup ∧
      ∀ d ∈ o.devices, 0 ≤ d ∧ d ≤ 255)
  cpuThreads : o.cpuThreads ≤ 128
  apiPort : o.apiPort ≤ 65535
  block : o.block ≤ 1024
  variant : o.variant ≤ 6
  openclVariant : o.openclVariant = -1 ∨ (0 ≤ o.openclVariant ∧ o.openclVariant ≤ 3)
  batch : 0 < o.batch.toNat ∧ o.batch.toNat ≤ 2 ^ 28
  cpuBatch : 0 < o.cpuBatch.toNat ∧ o.cpuBatch.toNat ≤ 2 ^ 20
  seconds : o.seconds = 0 ∨ ∃ text, A.Word text ∧ stod text = .ok (o.seconds, text.length) ∧
    isFinite o.seconds = true ∧ isNonpositive o.seconds = false
  coreMhz : ∀ v ∈ o.controls.coreMhz, v.toNat ≤ 10000
  memoryMhz : ∀ v ∈ o.controls.memoryMhz, v.toNat ≤ 100000
  powerWatts : ∀ v ∈ o.controls.powerWatts, v.toNat ≤ 2000
  fanPercent : ∀ v ∈ o.controls.fanPercent, v.toNat ≤ 100
  warnTemperature : o.warnTemperature ≤ 120
  alarmTemperature : o.alarmTemperature ≤ 120

theorem Alphabet.word_of_printable (A : Alphabet) {text : Text}
    (h : (text.all fun c => decide (32 ≤ c.toNat ∧ c.toNat < 127)) = true) : A.Word text := by
  intro c hc
  have hprintable := decide_eq_true_eq.mp (List.all_eq_true.mp h c hc)
  exact A.printable c hprintable.1 hprintable.2

theorem Alphabet.word_decimal (A : Alphabet) (n : Nat) : A.Word (Hardware.decimal n) := by
  intro c hc
  have hdigit : c.isDigit = true := Nat.isDigit_of_mem_toDigits (by decide) (by decide) hc
  rw [Char.isDigit, Bool.and_eq_true, decide_eq_true_eq, decide_eq_true_eq] at hdigit
  have hlow : 48 ≤ c.toNat := hdigit.1
  have hhigh : c.toNat ≤ 57 := hdigit.2
  exact A.printable c (by omega) (by omega)

theorem Alphabet.word_commaSeparated (A : Alphabet) (values : List UInt32) :
    A.Word (commaSeparated values) := by
  rw [commaSeparated]
  induction values with
  | nil => exact fun c hc => absurd hc List.not_mem_nil
  | cons v rest ih =>
      cases rest with
      | nil =>
          rw [List.map_singleton, List.intercalate_singleton]
          exact A.word_decimal v.toNat
      | cons next rest =>
          rw [List.map_cons, List.map_cons, List.intercalate_cons_cons]
          have hcomma : A.Word [','] := A.word_of_printable rfl
          exact List.forall_mem_append.mpr
            ⟨List.forall_mem_append.mpr ⟨A.word_decimal v.toNat, hcomma⟩, ih⟩

theorem inRange_default (A : Alphabet) (stod : Stod) : ({} : MineOptions).InRange A stod where
  texts := by
    have hnone : A.Word [] := A.word_of_printable rfl
    have hauto : A.Word "auto".toList := A.word_of_printable rfl
    have hx : A.Word "x".toList := A.word_of_printable rfl
    simp only [MineOptions.texts, List.forall_mem_cons]
    exact ⟨hauto, hauto, hnone, hnone, hnone, hnone, hx, by simp⟩
  tui := Or.inl rfl
  devices := Or.inl ⟨rfl, rfl⟩
  cpuThreads := by decide
  apiPort := by decide
  block := by decide
  variant := by decide
  openclVariant := Or.inl rfl
  batch := by decide
  cpuBatch := by decide
  seconds := Or.inl rfl
  coreMhz := by simp
  memoryMhz := by simp
  powerWatts := by simp
  fanPercent := by simp
  warnTemperature := by decide
  alarmTemperature := by decide

private theorem integer_le {s : Text} {maximum n : Nat} (hmax : maximum < 2 ^ 64)
    (h : integer s maximum = .ok n) : n ≤ maximum :=
  ((integer_eq_ok hmax).mp h).2.2.2

private theorem batch_range {s : Text} {maximum n : Nat} (hmax : maximum < 2 ^ 32)
    (h : integer s maximum = .ok n) (hzero : n.toUInt32 ≠ 0) :
    0 < n.toUInt32.toNat ∧ n.toUInt32.toNat ≤ maximum := by
  have hle := integer_le (hmax.trans (by decide)) h
  have hvalue : n.toUInt32.toNat = n := by
    rw [Nat.toUInt32, UInt32.toNat_ofNat']
    exact Nat.mod_eq_of_lt (by omega)
  refine ⟨Nat.pos_of_ne_zero fun hnot => hzero ?_, hvalue.trans_le hle⟩
  exact UInt32.toNat_inj.mp hnot

/-- A setting that is one number keeps its bound. -/
theorem set_number {value : Text} {maximum : Nat} {put : Nat → MineOptions}
    (hmax : maximum < 2 ^ 64) (h : (integer value maximum >>= fun n => pure (put n)) = .ok o') :
    ∃ n ≤ maximum, o' = put n := by
  obtain ⟨n, hn, h⟩ := bind_eq_ok.mp h
  obtain rfl := pure_eq_ok.mp h
  exact ⟨n, integer_le hmax hn, rfl⟩

theorem set_numbers {value : Text} {maximum : Nat} {put : List UInt32 → MineOptions}
    (hmax : maximum < 2 ^ 32) (h : (numbers value maximum >>= fun vs => pure (put vs)) = .ok o') :
    ∃ values : List UInt32, (∀ v ∈ values, v.toNat ≤ maximum) ∧ o' = put values := by
  obtain ⟨values, hvalues, h⟩ := bind_eq_ok.mp h
  obtain rfl := pure_eq_ok.mp h
  exact ⟨values, (numbers_ok hmax hvalues).2, rfl⟩

theorem MineOptions.InRange.set (h : o.InRange A stod) {setting : Setting} {value : Text}
    (hvalue : A.Word value) (hset : o.set stod setting value = .ok o') : o'.InRange A stod := by
  cases setting with
  | gpuDevice =>
      obtain ⟨values, hvalues, hset⟩ := bind_eq_ok.mp hset
      obtain ⟨hnodup, hset⟩ := guard_eq_ok.mp hset
      obtain rfl := pure_eq_ok.mp hset
      obtain ⟨hne, hle⟩ := numbers_ok (by decide) hvalues
      refine { h with devices := Or.inr ⟨rfl, ?_, not_not.mp hnodup, ?_⟩ }
      · simpa using hne
      · intro d hd
        obtain ⟨v, hv, rfl⟩ := List.mem_map.mp hd
        have := hle v hv
        omega
  | cpuThreads =>
      obtain ⟨n, hn, rfl⟩ := set_number (by decide) hset
      exact { h with cpuThreads := hn }
  | block =>
      obtain ⟨n, hn, rfl⟩ := set_number (by decide) hset
      exact { h with block := hn }
  | openclVariant =>
      obtain ⟨n, hn, rfl⟩ := set_number (by decide) hset
      exact { h with openclVariant := Or.inr ⟨Int.natCast_nonneg n, Int.ofNat_le.mpr hn⟩ }
  | variant =>
      obtain ⟨n, hn, rfl⟩ := set_number (by decide) hset
      exact { h with variant := hn }
  | batch =>
      obtain ⟨n, hn, hset⟩ := bind_eq_ok.mp hset
      obtain ⟨hzero, hset⟩ := guard_eq_ok.mp hset
      obtain rfl := pure_eq_ok.mp hset
      exact { h with batch := batch_range (by decide) hn hzero }
  | cpuBatch =>
      obtain ⟨n, hn, hset⟩ := bind_eq_ok.mp hset
      obtain ⟨hzero, hset⟩ := guard_eq_ok.mp hset
      obtain rfl := pure_eq_ok.mp hset
      exact { h with cpuBatch := batch_range (by decide) hn hzero }
  | seconds =>
      obtain ⟨⟨seconds, used⟩, hstod, hset⟩ := bind_eq_ok.mp hset
      obtain ⟨hguard, hset⟩ := guard_eq_ok.mp hset
      obtain rfl := pure_eq_ok.mp hset
      simp only [not_or, not_not, ne_eq, Bool.not_eq_false, Bool.not_eq_true] at hguard
      obtain ⟨rfl, hfinite, hpositive⟩ := hguard
      exact { h with seconds := Or.inr ⟨value, hvalue, hstod, hfinite, hpositive⟩ }
  | apiPort =>
      obtain ⟨n, hn, rfl⟩ := set_number (by decide) hset
      exact { h with apiPort := hn }
  | gpuCoreClock =>
      obtain ⟨values, hvalues, rfl⟩ := set_numbers (by decide) hset
      exact { h with coreMhz := hvalues }
  | gpuMemClock =>
      obtain ⟨values, hvalues, rfl⟩ := set_numbers (by decide) hset
      exact { h with memoryMhz := hvalues }
  | powerlimit =>
      obtain ⟨values, hvalues, rfl⟩ := set_numbers (by decide) hset
      exact { h with powerWatts := hvalues }
  | gpuFanSpeed =>
      obtain ⟨values, hvalues, rfl⟩ := set_numbers (by decide) hset
      exact { h with fanPercent := hvalues }
  | gpuTempWarn =>
      obtain ⟨n, hn, rfl⟩ := set_number (by decide) hset
      exact { h with warnTemperature := hn }
  | gpuTempAlarm =>
      obtain ⟨n, hn, rfl⟩ := set_number (by decide) hset
      exact { h with alarmTemperature := hn }
  | _ =>
      obtain rfl := pure_eq_ok.mp hset
      have htexts := h.texts
      simp only [MineOptions.texts, List.forall_mem_cons] at htexts
      exact { h with texts := by simp [MineOptions.texts, htexts, hvalue] }

theorem MineOptions.InRange.flip (h : p.o.InRange A stod) (switch : Switch) :
    (p.flip switch).o.InRange A stod := by
  cases switch with
  | tui => exact { h with tui := Or.inr (Or.inl rfl) }
  | noTui => exact { h with tui := Or.inr (Or.inr rfl) }
  | _ => exact { h with }

theorem inRange_of_scan {args : List Text} (hargs : ∀ word ∈ args, A.Word word)
    (h : scan (grammar stod) {} args = .ok (some p)) : p.o.InRange A stod := by
  obtain ⟨directives, hspells, hperform⟩ := scan_eq_some.mp h
  refine foldlM_invariant_mem (I := fun p : Parsed => p.o.InRange A stod) ?_ (inRange_default A stod)
    hperform
  intro p directive hmem p' hrange hperform
  cases directive with
  | flip switch =>
      obtain rfl := pure_eq_ok.mp hperform
      exact hrange.flip switch
  | set setting value =>
      obtain ⟨o, hset, hperform⟩ := bind_eq_ok.mp hperform
      obtain rfl := pure_eq_ok.mp hperform
      exact hrange.set (hargs _ (hspells.mem hmem)) hset

/-- A command line that takes some options to others, and sets nothing else but
the mark that there was a duration. -/
def Reaches (A : Alphabet) (stod : Stod) (o o' : MineOptions) : Prop :=
  ∃ args directives, (∀ word ∈ args, A.Word word) ∧ Spells (grammar stod) directives args ∧
    ∀ p : Parsed, p.o = o → ∃ secondsSet,
      directives.foldlM (perform (grammar stod)) p = .ok { p with o := o', secondsSet := secondsSet }

theorem Reaches.refl (A : Alphabet) (stod : Stod) (o : MineOptions) : Reaches A stod o o := by
  refine ⟨[], [], by simp, .nil, ?_⟩
  rintro p rfl
  exact ⟨p.secondsSet, rfl⟩

theorem Reaches.trans {o'' : MineOptions} (h : Reaches A stod o o') (h' : Reaches A stod o' o'') :
    Reaches A stod o o'' := by
  obtain ⟨args, directives, hwords, hspells, hperform⟩ := h
  obtain ⟨args', directives', hwords', hspells', hperform'⟩ := h'
  refine ⟨_, _, List.forall_mem_append.mpr ⟨hwords, hwords'⟩, hspells.append hspells', ?_⟩
  intro p hp
  obtain ⟨secondsSet, hfirst⟩ := hperform p hp
  obtain ⟨secondsSet', hsecond⟩ := hperform' { p with o := o', secondsSet := secondsSet } rfl
  exact ⟨secondsSet', by rw [List.foldlM_append, hfirst]; exact hsecond⟩

/-- A setting under its long name. -/
def Setting.word : Setting → String
  | .gpuDevice => "--gpu-device"
  | .gpuBackend => "--gpu-backend"
  | .cpuVariant => "--cpu-variant"
  | .cpuThreads => "--cpu-threads"
  | .block => "--block"
  | .openclVariant => "--opencl-variant"
  | .variant => "--variant"
  | .batch => "--batch"
  | .cpuBatch => "--cpu-batch"
  | .seconds => "--seconds"
  | .sv2Authority => "--sv2-authority"
  | .url => "--url"
  | .user => "--user"
  | .logFile => "--log-file"
  | .apiPort => "--api-port"
  | .password => "--password"
  | .gpuCoreClock => "--gpu-core-clock"
  | .gpuMemClock => "--gpu-mem-clock"
  | .powerlimit => "--powerlimit"
  | .gpuFanSpeed => "--gpu-fan-speed"
  | .gpuTempWarn => "--gpu-temp-warn"
  | .gpuTempAlarm => "--gpu-temp-alarm"

theorem role_word (setting : Setting) : role setting.word.toList = .setting setting := by
  cases setting <;> rfl

theorem word_word (A : Alphabet) (setting : Setting) : A.Word setting.word.toList := by
  apply A.word_of_printable
  cases setting <;> rfl

theorem Reaches.set {setting : Setting} {value : Text} (hvalue : A.Word value)
    (hset : o.set stod setting value = .ok o') : Reaches A stod o o' := by
  refine ⟨[setting.word.toList, value], [.set setting value],
    by simp [hvalue, word_word], .set (role_word setting) .nil, ?_⟩
  rintro p rfl
  refine ⟨p.secondsSet || setting == .seconds, ?_⟩
  rw [List.foldlM_cons]
  simp only [perform, grammar, Parsed.set, hset]
  rfl

theorem Reaches.flip {switch : Switch} {word : String}
    (hword : (word.toList.all fun c => decide (32 ≤ c.toNat ∧ c.toNat < 127)) = true)
    (hrole : role word.toList = .switch switch)
    (hflip : ∀ p : Parsed, p.o = o → p.flip switch = { p with o := o' }) : Reaches A stod o o' := by
  refine ⟨[word.toList], [.flip switch], by simpa using A.word_of_printable hword,
    .flip hrole .nil, ?_⟩
  intro p hp
  exact ⟨p.secondsSet, by rw [List.foldlM_cons]; simp only [perform, grammar, hflip p hp]; rfl⟩

theorem reaches_texts (o : MineOptions) (h : o'.InRange A stod) : Reaches A stod o { o with
    gpuMode := o'.gpuMode, cpuVariant := o'.cpuVariant, sv2Authority := o'.sv2Authority
    url := o'.url, user := o'.user, logFile := o'.logFile, password := o'.password } := by
  have htexts := h.texts
  simp only [MineOptions.texts, List.forall_mem_cons] at htexts
  obtain ⟨hmode, hvariant, hauthority, hurl, huser, hlog, hpassword, -⟩ := htexts
  have hmode : Reaches A stod o { o with gpuMode := o'.gpuMode } :=
    .set hmode (rfl : o.set stod .gpuBackend _ = .ok _)
  have hvariant := hmode.trans
    (.set hvariant (rfl : MineOptions.set stod _ .cpuVariant o'.cpuVariant = .ok _))
  have hauthority := hvariant.trans
    (.set hauthority (rfl : MineOptions.set stod _ .sv2Authority o'.sv2Authority = .ok _))
  have hurl := hauthority.trans (.set hurl (rfl : MineOptions.set stod _ .url o'.url = .ok _))
  have huser := hurl.trans (.set huser (rfl : MineOptions.set stod _ .user o'.user = .ok _))
  have hlog := huser.trans (.set hlog (rfl : MineOptions.set stod _ .logFile o'.logFile = .ok _))
  exact hlog.trans (.set hpassword (rfl : MineOptions.set stod _ .password o'.password = .ok _))

/-- A setting that stores a number takes its decimal form. -/
theorem Reaches.number (setting : Setting) {maximum n : Nat} {next : Nat → Except String MineOptions}
    (hset : ∀ value, o.set stod setting value = integer value maximum >>= next)
    (hmax : maximum < 2 ^ 64) (h : n ≤ maximum) (hnext : next n = .ok o') : Reaches A stod o o' := by
  have hvalue : o.set stod setting (Hardware.decimal n) = .ok o' := by
    rw [hset, integer_decimal hmax h]
    exact hnext
  exact .set (A.word_decimal n) hvalue

theorem reaches_numbers (o : MineOptions) (h : o'.InRange A stod) : Reaches A stod o { o with
    cpuThreads := o'.cpuThreads, block := o'.block, variant := o'.variant, apiPort := o'.apiPort
    warnTemperature := o'.warnTemperature, alarmTemperature := o'.alarmTemperature } := by
  have hthreads : Reaches A stod o { o with cpuThreads := o'.cpuThreads } :=
    .number .cpuThreads (fun _ => rfl) (by decide) h.cpuThreads rfl
  have hblock := hthreads.trans (.number .block (fun _ => rfl) (by decide) h.block rfl)
  have hvariant := hblock.trans (.number .variant (fun _ => rfl) (by decide) h.variant rfl)
  have hport := hvariant.trans (.number .apiPort (fun _ => rfl) (by decide) h.apiPort rfl)
  have hwarn := hport.trans (.number .gpuTempWarn (fun _ => rfl) (by decide) h.warnTemperature rfl)
  exact hwarn.trans (.number .gpuTempAlarm (fun _ => rfl) (by decide) h.alarmTemperature rfl)

theorem reaches_batches (o : MineOptions) (h : o'.InRange A stod) :
    Reaches A stod o { o with batch := o'.batch, cpuBatch := o'.cpuBatch } := by
  have hpositive {b : UInt32} (hb : 0 < b.toNat) : b ≠ 0 := by
    rintro rfl
    exact absurd hb (by decide)
  have hsame (b : UInt32) : b.toNat.toUInt32 = b := UInt32.ofNat_toNat
  have hbatch : Reaches A stod o { o with batch := o'.batch } := by
    refine .number .batch (fun _ => rfl) (by decide) h.batch.2 ?_
    dsimp only
    rw [hsame, if_neg (hpositive h.batch.1)]
    rfl
  refine hbatch.trans (.number .cpuBatch (fun _ => rfl) (by decide) h.cpuBatch.2 ?_)
  dsimp only
  rw [hsame, if_neg (hpositive h.cpuBatch.1)]
  rfl

theorem reaches_noCpu (h : o.noCpu = false) (b : Bool) : Reaches A stod o { o with noCpu := b } := by
  cases b with
  | false => exact h ▸ .refl A stod o
  | true => exact .flip rfl (rfl : role "--no-cpu".toList = .switch .noCpu) fun p hp => by subst hp; rfl

theorem reaches_noGpu (h : o.noGpu = false) (b : Bool) : Reaches A stod o { o with noGpu := b } := by
  cases b with
  | false => exact h ▸ .refl A stod o
  | true => exact .flip rfl (rfl : role "--no-gpu".toList = .switch .noGpu) fun p hp => by subst hp; rfl

theorem reaches_tui (h : o.tui = "auto".toList) {tui : Text}
    (htui : tui = "auto".toList ∨ tui = "on".toList ∨ tui = "off".toList) :
    Reaches A stod o { o with tui := tui } := by
  rcases htui with rfl | rfl | rfl
  · exact h ▸ .refl A stod o
  · exact .flip rfl (rfl : role "--tui".toList = .switch .tui) fun p hp => by subst hp; rfl
  · exact .flip rfl (rfl : role "--no-tui".toList = .switch .noTui) fun p hp => by subst hp; rfl

theorem reaches_openclVariant (h : o.openclVariant = -1) (ho' : o'.InRange A stod) :
    Reaches A stod o { o with openclVariant := o'.openclVariant } := by
  rcases ho'.openclVariant with hauto | ⟨hlow, hhigh⟩
  · rw [hauto, ← h]
    exact .refl A stod o
  · obtain ⟨n, hn⟩ := Int.eq_ofNat_of_zero_le hlow
    rw [hn] at hhigh ⊢
    exact .number .openclVariant (fun _ => rfl) (by decide) (Int.ofNat_le.mp hhigh) rfl

theorem reaches_seconds (h : o.seconds = 0) (ho' : o'.InRange A stod) :
    Reaches A stod o { o with seconds := o'.seconds } := by
  rcases ho'.seconds with hzero | ⟨text, htext, hstod, hfinite, hpositive⟩
  · rw [hzero, ← h]
    exact .refl A stod o
  · have hset : o.set stod .seconds text = .ok { o with seconds := o'.seconds } := by
      simp only [MineOptions.set, hstod, ok_bind, hfinite, hpositive]
      exact if_neg (by simp)
    exact .set htext hset

theorem reaches_devices (h : o.devicesExplicit = false ∧ o.devices = []) (ho' : o'.InRange A stod) :
    Reaches A stod o { o with devices := o'.devices, devicesExplicit := o'.devicesExplicit } := by
  rcases ho'.devices with ⟨hexplicit, hdevices⟩ | ⟨hexplicit, hne, hnodup, hbound⟩
  · rw [hexplicit, hdevices, ← h.1, ← h.2]
    exact .refl A stod o
  · have hvalues : (o'.devices.map fun d => d.toNat.toUInt32).map (fun n => (n.toNat : Int)) =
        o'.devices := by
      rw [List.map_map]
      refine (List.map_congr_left fun d hd => ?_).trans (List.map_id _)
      obtain ⟨hlow, hhigh⟩ := hbound d hd
      simp only [Function.comp_apply, Nat.toUInt32, UInt32.toNat_ofNat', id_eq]
      omega
    have hset : o.set stod .gpuDevice (commaSeparated (o'.devices.map fun d => d.toNat.toUInt32)) =
        .ok { o with devices := o'.devices, devicesExplicit := o'.devicesExplicit } := by
      rw [MineOptions.set, numbers_commaSeparated (by decide) (by simpa using hne), ok_bind, hvalues,
        hexplicit]
      · exact if_neg (not_not.mpr hnodup)
      · intro v hv
        obtain ⟨d, hd, rfl⟩ := List.mem_map.mp hv
        have := hbound d hd
        simp only [Nat.toUInt32, UInt32.toNat_ofNat']
        omega
    exact .set (A.word_commaSeparated _) hset

/-- A list of controls that is left alone or set. -/
theorem Reaches.numbers (setting : Setting) (next : List UInt32 → MineOptions) {maximum : Nat}
    {values : List UInt32}
    (hset : ∀ value, o.set stod setting value = (numbers value maximum >>= fun v => pure (next v)))
    (hmax : maximum < 2 ^ 32) (h : ∀ v ∈ values, v.toNat ≤ maximum) (hnil : next [] = o) :
    Reaches A stod o (next values) := by
  by_cases hvalues : values = []
  · rw [hvalues, hnil]
    exact .refl A stod o
  · have hvalue : o.set stod setting (commaSeparated values) = .ok (next values) := by
      rw [hset, numbers_commaSeparated hmax hvalues h]
      rfl
    exact .set (A.word_commaSeparated values) hvalue

theorem reaches_controls (h : o.controls = {}) (ho' : o'.InRange A stod) :
    Reaches A stod o { o with controls := o'.controls } := by
  obtain ⟨base, rfl⟩ : ∃ base : MineOptions, o = { base with controls := {} } := ⟨o, by rw [← h]⟩
  have hcore : Reaches A stod { base with controls := {} } { base with
      controls := { coreMhz := o'.controls.coreMhz } } :=
    .numbers .gpuCoreClock (fun v => { base with controls := { coreMhz := v } })
      (fun _ => rfl) (by decide) ho'.coreMhz rfl
  have hmemory := hcore.trans (.numbers .gpuMemClock
    (fun v => { base with
      controls := { coreMhz := o'.controls.coreMhz, memoryMhz := v } })
    (fun _ => rfl) (by decide) ho'.memoryMhz rfl)
  have hpower := hmemory.trans (.numbers .powerlimit
    (fun v => { base with controls :=
      { coreMhz := o'.controls.coreMhz, memoryMhz := o'.controls.memoryMhz, powerWatts := v } })
    (fun _ => rfl) (by decide) ho'.powerWatts rfl)
  exact hpower.trans (.numbers .gpuFanSpeed
    (fun v => { base with controls :=
      { coreMhz := o'.controls.coreMhz, memoryMhz := o'.controls.memoryMhz
        powerWatts := o'.controls.powerWatts, fanPercent := v } })
    (fun _ => rfl) (by decide) ho'.fanPercent rfl)

theorem reaches_inRange (h : o.InRange A stod) : Reaches A stod {} o := by
  have htexts : Reaches A stod {} _ := reaches_texts {} h
  have hnumbers := htexts.trans (reaches_numbers _ h)
  have hbatches := hnumbers.trans (reaches_batches _ h)
  have hnoCpu := hbatches.trans (reaches_noCpu rfl o.noCpu)
  have hnoGpu := hnoCpu.trans (reaches_noGpu rfl o.noGpu)
  have htui := hnoGpu.trans (reaches_tui rfl h.tui)
  have hvariant := htui.trans (reaches_openclVariant rfl h)
  have hseconds := hvariant.trans (reaches_seconds rfl h)
  have hdevices := hseconds.trans (reaches_devices ⟨rfl, rfl⟩ h)
  exact hdevices.trans (reaches_controls rfl h)

/-- The combinations `main` lets through to `mine`. -/
structure MineOptions.Minable (o : MineOptions) : Prop where
  cpuVariant : o.cpuVariant = "auto".toList ∨ o.cpuVariant = "scalar".toList ∨
    o.cpuVariant = "avx2".toList
  temperatures : 0 < o.warnTemperature ∧ o.warnTemperature < o.alarmTemperature
  devices : ¬ (o.noCpu = true ∧ o.noGpu = true)
  selection : ¬ (o.noGpu = true ∧ o.devicesExplicit = true)
  url : o.url ≠ []

theorem minable_of_dispatch {args : List Text} (h : dispatch stod args = .ok (.mine o)) :
    ∃ p, scan (grammar stod) {} args = .ok (some p) ∧ p.o = o ∧ o.Minable := by
  obtain ⟨result, hscan, h⟩ := bind_eq_ok.mp h
  cases result with
  | none => cases h
  | some p =>
      refine ⟨p, hscan, ?_⟩
      rcases ite_eq_iff.mp h with ⟨-, h⟩ | ⟨-, h⟩
      · cases h
      obtain ⟨hvariant, h⟩ := guard_eq_ok.mp h
      obtain ⟨-, h⟩ := guard_eq_ok.mp h
      obtain ⟨-, h⟩ := guard_eq_ok.mp h
      obtain ⟨htemperatures, h⟩ := guard_eq_ok.mp h
      obtain ⟨-, h⟩ := guard_eq_ok.mp h
      rcases ite_eq_iff.mp h with ⟨-, h⟩ | ⟨-, h⟩
      · obtain ⟨-, h⟩ := guard_eq_ok.mp h
        cases h
      rcases ite_eq_iff.mp h with ⟨-, h⟩ | ⟨-, h⟩
      · cases h
      obtain ⟨hdevices, h⟩ := guard_eq_ok.mp h
      obtain ⟨hselection, h⟩ := guard_eq_ok.mp h
      rcases ite_eq_iff.mp h with ⟨hurl, h⟩ | ⟨-, h⟩
      · obtain rfl := Task.mine.inj (pure_eq_ok.mp h)
        refine ⟨rfl, ?_, ?_, hdevices, hselection, hurl⟩
        · by_contra hnot
          simp only [not_or] at hnot
          exact hvariant hnot
        · omega
      · rcases ite_eq_iff.mp h with ⟨-, h⟩ | ⟨-, h⟩ <;> cases h

/-- The options `mine` is called with are exactly those that are within the
ranges of the command line and that `main` lets through, for words of any
characters: texts of other characters cannot be given, and no others are needed. -/
theorem mine_iff (A : Alphabet) :
    (∃ args, (∀ word ∈ args, A.Word word) ∧ dispatch stod args = .ok (.mine o)) ↔
      o.InRange A stod ∧ o.Minable := by
  constructor
  · rintro ⟨args, hargs, h⟩
    obtain ⟨p, hscan, rfl, hminable⟩ := minable_of_dispatch h
    exact ⟨inRange_of_scan hargs hscan, hminable⟩
  · rintro ⟨hrange, hminable⟩
    obtain ⟨args, directives, hwords, hspells, hperform⟩ := reaches_inRange hrange
    obtain ⟨secondsSet, hfold⟩ := hperform {} rfl
    have hscan : scan (grammar stod) {} args = .ok (some { o := o, secondsSet := secondsSet }) :=
      scan_eq_some.mpr ⟨directives, hspells, hfold⟩
    have hargs : args ≠ [] := by
      rintro rfl
      obtain rfl := congrArg Parsed.o (Option.some.inj (Except.ok.inj hscan))
      exact hminable.url rfl
    refine ⟨args, hwords, ?_⟩
    have hvariant : ¬ (o.cpuVariant ≠ "auto".toList ∧ o.cpuVariant ≠ "scalar".toList ∧
        o.cpuVariant ≠ "avx2".toList) := by
      rintro ⟨hauto, hscalar, havx2⟩
      rcases hminable.cpuVariant with h | h | h
      · exact hauto h
      · exact hscalar h
      · exact havx2 h
    have htemperatures : ¬ (o.warnTemperature ≥ o.alarmTemperature ∨ o.warnTemperature = 0) := by
      have := hminable.temperatures
      omega
    rw [dispatch, hscan, ok_bind]
    dsimp only
    rw [if_neg (by simpa using hargs), if_neg hvariant, if_neg (by decide), if_neg (by simp),
      if_neg htemperatures, if_neg (by simp), if_neg (by decide), if_neg (by decide),
      if_neg hminable.devices, if_neg hminable.selection, if_pos hminable.url]
    rfl

end Supryolo.CommandLine
