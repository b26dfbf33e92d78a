/-
# ServerConfig: the configuration file

`load_from_file` starts from the initial values of the members and goes through the file line by
line: leading white space is cut off, empty lines and lines that begin with `'#'` are skipped,
and of every other line the first two words are a key and a value.  A value that is no number,
or one that does not fit, throws where a number is wanted; nothing catches that (`none`).

The abstract reading of a file is the list of its settings (`fileSettings`), and the
configuration is what the last setting of each key says (`loadFromFile_eq`).
-/
import KeyValueDb.Lib.InputStream
import KeyValueDb.Resp.Forward
import Mathlib.Data.List.Induction
import Mathlib.Data.List.Nodup

namespace KeyValueDb

open Lib RespParser

/-! ## 1. The model -/

/-- The parameters of the server.  `port` has 16 bits, the sizes 64. -/
structure ServerConfig where
  port : Nat
  threadCount : Nat
  requirepass : Bytes
  aofEnabled : Bool
  aofFilename : Bytes
  maxKeys : Nat

/-- The keys that `load_from_file` compares with. -/
inductive Setting
  | port | threads | requirepass | aofEnabled | aofFilename | maxKeys
  deriving DecidableEq

namespace Setting

def word : Setting → Bytes
  | port => bytes "port"
  | threads => bytes "threads"
  | requirepass => bytes "requirepass"
  | aofEnabled => bytes "aof_enabled"
  | aofFilename => bytes "aof_filename"
  | maxKeys => bytes "max_keys"

/-- The order of the comparisons. -/
def all : List Setting := [port, threads, requirepass, aofEnabled, aofFilename, maxKeys]

def ofWord (w : Bytes) : Option Setting := all.find? fun s => s.word == w

@[simp] theorem ofWord_word (s : Setting) : ofWord s.word = some s := by
  cases s <;> rfl

end Setting

/-- `static_cast<std::uint16_t>` of an `int`. -/
def toPort (n : Int) : Nat := (n % 2 ^ 16).toNat

/-- `in >> word`: white space is skipped, and the word ends where white space begins again. -/
def nextWord (input : Bytes) : Option (Bytes × Bytes) :=
  let rest := input.dropWhile isspace
  let word := rest.takeWhile fun c => !isspace c
  if word = [] then none else some (word, rest.dropWhile fun c => !isspace c)

/-- The setting in a line, if there is one whose key is known. -/
def setting? (line : Bytes) : Option (Setting × Bytes) :=
  let line := line.dropWhile isspace
  if line.head? = none ∨ line.head? = some 35 then none
  else (nextWord line).bind fun (key, rest) => (nextWord rest).bind fun (value, _) =>
    (Setting.ofWord key).map fun s => (s, value)

namespace ServerConfig

/-- The initial values of the members; `cores` is `std::thread::hardware_concurrency()`. -/
def initial (cores : Nat) : ServerConfig where
  port := 8080
  threadCount := if 0 < cores then cores else 4
  requirepass := []
  aofEnabled := true
  aofFilename := bytes "database.aof"
  maxKeys := 500000

/-- The branch of a key. -/
def set (config : ServerConfig) : Setting → Bytes → Option ServerConfig
  | .port, value => (stoi value).map fun n => { config with port := toPort n }
  | .threads, value => (stoi value).map fun n => { config with threadCount := toSize n }
  | .requirepass, value => some { config with requirepass := value }
  | .aofEnabled, value =>
    some { config with
      aofEnabled := value == bytes "yes" || value == bytes "true" || value == bytes "1" }
  | .aofFilename, value => some { config with aofFilename := value }
  | .maxKeys, value => (stoul value).map fun n => { config with maxKeys := n }

/-- One line of the file. -/
def readLine (config : ServerConfig) (line : Bytes) : Option ServerConfig :=
  match setting? line with
  | none => some config
  | some (s, value) => config.set s value

/-- The loop of `load_from_file`; the fuel bounds the number of lines. -/
def loadLoop : Nat → IStream → ServerConfig → Option ServerConfig
  | 0, _, config => some config
  | fuel + 1, st, config =>
    match st.getline with
    | (none, _) => some config
    | (some line, st) => (config.readLine line).bind (loadLoop fuel st)

/-- The configuration in a file; `none` when it throws.  A file that cannot be opened leaves the
initial values. -/
def loadFromFile (cores : Nat) : Option Bytes → Option ServerConfig
  | none => some (initial cores)
  | some file => loadLoop (file.length + 1) ⟨file, true⟩ (initial cores)

end ServerConfig

/-! ## 2. What a file says -/

/-- The settings of a file, in order. -/
def fileSettings (file : Bytes) : List (Setting × Bytes) :=
  (IStream.fileLines file).filterMap setting?

/-- The last value of a key. -/
def lastSetting (s : Setting) (settings : List (Setting × Bytes)) : Option Bytes :=
  ((settings.filter fun p => p.1 = s).getLast?).map Prod.snd

/-- The value is one that its key takes. -/
def Readable (p : Setting × Bytes) : Bool :=
  match p.1 with
  | .port | .threads => (stoi p.2).isSome
  | .maxKeys => (stoul p.2).isSome
  | _ => true

namespace ServerConfig

/-- The configuration that the last settings of each key make. -/
def ofSettings (cores : Nat) (settings : List (Setting × Bytes)) : ServerConfig where
  port := (((lastSetting .port settings).bind stoi).map toPort).getD (initial cores).port
  threadCount :=
    (((lastSetting .threads settings).bind stoi).map toSize).getD (initial cores).threadCount
  requirepass := (lastSetting .requirepass settings).getD (initial cores).requirepass
  aofEnabled := ((lastSetting .aofEnabled settings).map fun value =>
    value == bytes "yes" || value == bytes "true" || value == bytes "1").getD
      (initial cores).aofEnabled
  aofFilename := (lastSetting .aofFilename settings).getD (initial cores).aofFilename
  maxKeys := ((lastSetting .maxKeys settings).bind stoul).getD (initial cores).maxKeys

end ServerConfig

section LastSetting

variable {s : Setting} {p : Setting × Bytes} {value : Bytes} {settings : List (Setting × Bytes)}

theorem lastSetting_append_self (s : Setting) (value : Bytes) (settings : List (Setting × Bytes)) :
    lastSetting s (settings ++ [(s, value)]) = some value := by
  simp [lastSetting, List.filter_append]

theorem lastSetting_append_of_ne (h : p.1 ≠ s) :
    lastSetting s (settings ++ [p]) = lastSetting s settings := by
  simp [lastSetting, List.filter_append, h]

theorem mem_of_lastSetting (h : lastSetting s settings = some value) : (s, value) ∈ settings := by
  obtain ⟨⟨s', value'⟩, hlast, rfl⟩ := Option.map_eq_some_iff.mp h
  obtain ⟨hmem, hs⟩ := List.mem_filter.mp (List.mem_of_getLast? hlast)
  obtain rfl : s' = s := by simpa using hs
  exact hmem

/-- Where no key comes twice, each setting is the last of its key. -/
theorem lastSetting_of_mem (hnodup : (settings.map Prod.fst).Nodup) (h : (s, value) ∈ settings) :
    lastSetting s settings = some value := by
  cases hlast : lastSetting s settings with
  | none =>
    have hnone : settings.filter (fun p => p.1 = s) = [] := by
      rwa [lastSetting, Option.map_eq_none_iff, List.getLast?_eq_none_iff] at hlast
    exact absurd (decide_eq_true rfl) (List.filter_eq_nil_iff.mp hnone _ h)
  | some value' =>
    have hsame := List.inj_on_of_nodup_map hnodup (mem_of_lastSetting hlast) h rfl
    rw [(Prod.mk.inj hsame).2]

theorem lastSetting_of_notMem (h : s ∉ settings.map Prod.fst) : lastSetting s settings = none := by
  have hnone : settings.filter (fun p => p.1 = s) = [] :=
    List.filter_eq_nil_iff.mpr fun p hp => by
      simpa using fun heq : p.1 = s => h (heq ▸ List.mem_map_of_mem hp)
  rw [lastSetting, hnone]
  rfl

end LastSetting

namespace ServerConfig

variable {cores : Nat} {settings : List (Setting × Bytes)}

theorem loadLoop_eq (fuel : Nat) (st : IStream) (config : ServerConfig) :
    loadLoop fuel st config = (IStream.getlines fuel st).foldlM readLine config := by
  induction fuel generalizing st config with
  | zero => rfl
  | succ fuel ih =>
    unfold loadLoop IStream.getlines
    rcases st.getline with ⟨_ | line, st⟩
    · rfl
    · dsimp only
      rw [List.foldlM_cons]
      exact congrArg _ (funext fun c => ih st c)

/-- Lines without a setting do nothing. -/
theorem foldlM_readLine (lines : List Bytes) (config : ServerConfig) :
    lines.foldlM readLine config =
      (lines.filterMap setting?).foldlM (fun c p => c.set p.1 p.2) config := by
  induction lines generalizing config with
  | nil => rfl
  | cons line lines ih =>
    rw [List.foldlM_cons]
    cases hline : setting? line with
    | none =>
      rw [List.filterMap_cons_none hline, ← ih]
      simp [readLine, hline]
    | some p =>
      rw [List.filterMap_cons_some hline, List.foldlM_cons]
      simp only [readLine, hline]
      exact congrArg _ (funext fun c => ih c)

/-- One more setting. -/
theorem set_ofSettings (cores : Nat) (settings : List (Setting × Bytes)) (p : Setting × Bytes) :
    (ofSettings cores settings).set p.1 p.2 =
      if Readable p then some (ofSettings cores (settings ++ [p])) else none := by
  obtain ⟨s, value⟩ := p
  have hself := lastSetting_append_self s value settings
  have hother : ∀ s', s ≠ s' →
      lastSetting s' (settings ++ [(s, value)]) = lastSetting s' settings :=
    fun s' hne => lastSetting_append_of_ne (p := (s, value)) hne
  cases s <;> simp only [set, Readable, ofSettings, hself, hother, ne_eq, reduceCtorEq,
    not_false_eq_true, Option.bind_some, Option.getD_some, Option.map_some, if_true]
  case port | threads => cases stoi value <;> rfl
  case maxKeys => cases stoul value <;> rfl

theorem foldlM_set (settings : List (Setting × Bytes)) :
    settings.foldlM (fun c p => c.set p.1 p.2) (initial cores) =
      if settings.all Readable then some (ofSettings cores settings) else none := by
  induction settings using List.reverseRecOn with
  | nil => rfl
  | append_singleton settings p ih =>
    rw [List.foldlM_append, ih, List.all_append]
    cases settings.all Readable with
    | false => rfl
    | true =>
      have hone := set_ofSettings cores settings p
      simpa using hone

/-- **The last setting of each key counts**, whatever the order of the keys, the comments and the
lines with other words between them; a file throws exactly if one of its values is not one that
its key takes, be it the last or not. -/
theorem loadFromFile_eq (cores : Nat) (file : Bytes) :
    loadFromFile cores (some file) =
      if (fileSettings file).all Readable then some (ofSettings cores (fileSettings file))
      else none := by
  rw [loadFromFile, loadLoop_eq, IStream.getlines_eq (Nat.lt_succ_self _), foldlM_readLine]
  exact foldlM_set (fileSettings file)

/-- Carriage returns, comments and other words do not matter; a port of more than 16 bits is cut
off, and `threads 0` is no number of cores. -/
example : (loadFromFile 8 (some (bytes "# a\r\nthreads 4\r\nport 70000 x\nthreads 0"))).map
    (fun config => (config.port, config.threadCount)) = some (4464, 0) := by
  decide +kernel

end ServerConfig

/-! ## 3. What a file can say -/

/-- Something that `>>` reads whole. -/
structure IsToken (word : Bytes) : Prop where
  ne_nil : word ≠ []
  solid : ∀ c ∈ word, isspace c = false

instance (word : Bytes) : Decidable (IsToken word) :=
  decidable_of_iff (word ≠ [] ∧ (word.all fun c => !isspace c) = true)
    ⟨fun h => ⟨h.1, by simpa using h.2⟩, fun h => ⟨h.ne_nil, by simpa using h.solid⟩⟩

theorem isToken_word (s : Setting) : IsToken s.word := by
  cases s <;> decide

theorem isToken_dec (n : Nat) : IsToken (dec n) :=
  ⟨dec_ne_nil n, fun c hc => isspace_of_isDigit (isDigit_of_mem_dec n c hc)⟩

theorem isToken_stdToString (n : Int) : IsToken (stdToString n) := by
  have hdec := isToken_dec n.natAbs
  unfold stdToString
  split
  · refine ⟨by simp, fun c hc => ?_⟩
    rcases List.mem_cons.mp hc with rfl | hc
    · decide
    · exact hdec.solid c hc
  · exact hdec

/-- A word that `>>` delivers is one. -/
theorem isToken_of_nextWord {input word rest : Bytes} (h : nextWord input = some (word, rest)) :
    IsToken word := by
  unfold nextWord at h
  dsimp only at h
  split at h
  · cases h
  · rename_i hne
    obtain ⟨rfl, -⟩ := Prod.mk.inj (Option.some.inj h)
    exact ⟨hne, fun c hc => by simpa using List.mem_takeWhile_imp hc⟩

theorem isToken_of_setting? {line value : Bytes} {s : Setting}
    (h : setting? line = some (s, value)) : IsToken value := by
  unfold setting? at h
  dsimp only at h
  split at h
  · cases h
  · obtain ⟨⟨key, rest⟩, -, h⟩ := Option.bind_eq_some_iff.mp h
    obtain ⟨⟨value', rest'⟩, hvalue, h⟩ := Option.bind_eq_some_iff.mp h
    obtain ⟨s', -, heq⟩ := Option.map_eq_some_iff.mp h
    obtain ⟨-, rfl⟩ := Prod.mk.inj heq
    exact isToken_of_nextWord hvalue

theorem isToken_of_mem_fileSettings {file : Bytes} {p : Setting × Bytes}
    (h : p ∈ fileSettings file) : IsToken p.2 := by
  obtain ⟨line, -, hline⟩ := List.mem_filterMap.mp h
  exact isToken_of_setting? hline

/-- A word in front of white space, or of the end. -/
theorem nextWord_append {word rest : Bytes} (h : IsToken word)
    (hrest : ∀ c ∈ rest.head?, isspace c = true) : nextWord (word ++ rest) = some (word, rest) := by
  obtain ⟨c, cs, rfl⟩ := List.exists_cons_of_ne_nil h.ne_nil
  have hfirst : isspace c = false := h.solid c List.mem_cons_self
  have hskip : (c :: cs ++ rest).dropWhile isspace = c :: cs ++ rest := by simp [hfirst]
  have hall : ∀ d ∈ c :: cs, (!isspace d) = true := fun d hd => by rw [h.solid d hd, Bool.not_false]
  have htake : rest.takeWhile (fun d => !isspace d) = [] := by
    cases rest with
    | nil => rfl
    | cons d ds => simp [hrest d (by simp)]
  have hdrop : rest.dropWhile (fun d => !isspace d) = rest := by
    cases rest with
    | nil => rfl
    | cons d ds => simp [hrest d (by simp)]
  simp only [nextWord, hskip, List.takeWhile_append_of_pos hall, htake, List.append_nil,
    List.dropWhile_append_of_pos hall, hdrop]
  simp

/-- A setting as a line. -/
def settingLine (p : Setting × Bytes) : Bytes := p.1.word ++ 32 :: (p.2 ++ [lf])

theorem setting?_settingLine {p : Setting × Bytes} (h : IsToken p.2) :
    setting? (settingLine p).dropLast = some p := by
  obtain ⟨s, value⟩ := p
  have hline : (settingLine (s, value)).dropLast = s.word ++ 32 :: value := by
    have hassoc : settingLine (s, value) = (s.word ++ 32 :: value) ++ [lf] := by
      simp [settingLine]
    rw [hassoc, List.dropLast_concat]
  have hskip : (s.word ++ 32 :: value).dropWhile isspace = s.word ++ 32 :: value := by
    cases s <;> rfl
  have hhead : ¬ ((s.word ++ 32 :: value).head? = none ∨
      (s.word ++ 32 :: value).head? = some 35) := by
    cases s <;> simp [Setting.word, bytes]
  have hkey : nextWord (s.word ++ 32 :: value) = some (s.word, 32 :: value) :=
    nextWord_append (isToken_word s) (by simp; decide)
  have hvalue : nextWord (32 :: value) = some (value, []) := by
    have hnext : nextWord (value ++ []) = some (value, []) := nextWord_append h (by simp)
    rwa [List.append_nil] at hnext
  simp only [setting?, hline, hskip, if_neg hhead, hkey, Option.bind_some, hvalue,
    Setting.ofWord_word, Option.map_some]

/-- **A file of settings** is read as these settings. -/
theorem fileSettings_flatMap {settings : List (Setting × Bytes)}
    (h : ∀ p ∈ settings, IsToken p.2) :
    fileSettings (settings.flatMap settingLine) = settings := by
  have hlf : ∀ word : Bytes, IsToken word → lf ∉ word := fun word hword hmem =>
    absurd (hword.solid lf hmem) (by decide)
  have hline : ∀ p ∈ settings, IsLine lf (settingLine p) := fun p hp => by
    refine ⟨p.1.word ++ 32 :: p.2, ?_, by simp [settingLine]⟩
    simp only [List.mem_append, List.mem_cons, not_or]
    exact ⟨hlf _ (isToken_word p.1), by decide, hlf _ (h p hp)⟩
  have hlines := splitLines_flatMap lf hline
  unfold fileSettings IStream.fileLines
  rw [hlines]
  simp only [if_true, List.append_nil, List.filterMap_map]
  have hread : ∀ p ∈ settings, (setting? ∘ List.dropLast ∘ settingLine) p = some p :=
    fun p hp => setting?_settingLine (h p hp)
  rw [Function.comp_assoc, List.filterMap_congr hread, List.filterMap_some]

namespace ServerConfig

theorem stoul_lt {value : Bytes} {n : Nat} (h : stoul value = some n) : n < 2 ^ 64 := by
  obtain ⟨⟨neg, m⟩, -, hm⟩ := Option.bind_eq_some_iff.mp h
  dsimp only at hm
  split at hm
  · obtain rfl := Option.some.inj hm
    split <;> omega
  · cases hm

/-- The configurations that a file can lead to, on a machine with so many cores. -/
structure Expressible (cores : Nat) (config : ServerConfig) : Prop where
  port : config.port < 2 ^ 16
  threadCount : config.threadCount = (initial cores).threadCount ∨
    ∃ n : Int, (-2 ^ 31 ≤ n ∧ n < 2 ^ 31) ∧ config.threadCount = toSize n
  requirepass : ∀ c ∈ config.requirepass, isspace c = false
  aofFilename : IsToken config.aofFilename
  maxKeys : config.maxKeys < 2 ^ 64

/-- The settings that lead to a configuration; `threads` is the number to write, if any. -/
def settingsOf (config : ServerConfig) (threads : Option Int) : List (Setting × Bytes) :=
  [(.port, dec config.port), (.aofEnabled, bytes (if config.aofEnabled then "yes" else "no")),
      (.aofFilename, config.aofFilename), (.maxKeys, dec config.maxKeys)] ++
    (threads.map fun n => (Setting.threads, stdToString n)).toList ++
    (if config.requirepass = [] then [] else [(.requirepass, config.requirepass)])

variable {config : ServerConfig} {threads : Option Int}

theorem mem_settingsOf {p : Setting × Bytes} : p ∈ config.settingsOf threads ↔
    p = (.port, dec config.port) ∨
      p = (.aofEnabled, bytes (if config.aofEnabled then "yes" else "no")) ∨
      p = (.aofFilename, config.aofFilename) ∨ p = (.maxKeys, dec config.maxKeys) ∨
      (∃ n ∈ threads, p = (.threads, stdToString n)) ∨
      (config.requirepass ≠ [] ∧ p = (.requirepass, config.requirepass)) := by
  unfold settingsOf
  cases threads <;> split <;> simp [*]

theorem nodup_settingsOf (config : ServerConfig) (threads : Option Int) :
    ((config.settingsOf threads).map Prod.fst).Nodup := by
  unfold settingsOf
  cases threads <;> by_cases hnil : config.requirepass = [] <;> simp [hnil]

theorem lastSetting_settingsOf {s : Setting} {value : Bytes}
    (h : (s, value) ∈ config.settingsOf threads) :
    lastSetting s (config.settingsOf threads) = some value :=
  lastSetting_of_mem (nodup_settingsOf config threads) h

theorem lastSetting_threads (config : ServerConfig) (threads : Option Int) :
    lastSetting .threads (config.settingsOf threads) = threads.map stdToString := by
  cases threads with
  | none => exact lastSetting_of_notMem (by unfold settingsOf; split <;> simp)
  | some n => exact lastSetting_settingsOf (mem_settingsOf.mpr (by simp))

theorem lastSetting_requirepass (config : ServerConfig) (threads : Option Int) :
    (lastSetting .requirepass (config.settingsOf threads)).getD [] = config.requirepass := by
  by_cases hnil : config.requirepass = []
  · rw [lastSetting_of_notMem (by unfold settingsOf; cases threads <;> simp [hnil]), hnil]
    rfl
  · have hmem : (Setting.requirepass, config.requirepass) ∈ config.settingsOf threads :=
      mem_settingsOf.mpr (by simp [hnil])
    rw [lastSetting_settingsOf hmem]
    rfl

theorem ofSettings_settingsOf (h : Expressible cores config)
    (hthreads : (threads.map toSize).getD (initial cores).threadCount = config.threadCount)
    (hrange : ∀ n ∈ threads, -2 ^ 31 ≤ n ∧ n < 2 ^ 31) :
    ofSettings cores (config.settingsOf threads) = config := by
  have hport : lastSetting .port (config.settingsOf threads) = some (dec config.port) :=
    lastSetting_settingsOf (mem_settingsOf.mpr (by simp))
  have henabled : lastSetting .aofEnabled (config.settingsOf threads) =
      some (bytes (if config.aofEnabled then "yes" else "no")) :=
    lastSetting_settingsOf (mem_settingsOf.mpr (by simp))
  have hfile : lastSetting .aofFilename (config.settingsOf threads) = some config.aofFilename :=
    lastSetting_settingsOf (mem_settingsOf.mpr (by simp))
  have hkeys : lastSetting .maxKeys (config.settingsOf threads) = some (dec config.maxKeys) :=
    lastSetting_settingsOf (mem_settingsOf.mpr (by simp))
  have hint : (threads.map stdToString).bind stoi = threads := by
    cases threads with
    | none => rfl
    | some n => exact stoi_stdToString (hrange n rfl)
  have hlt := h.port
  have hstoi : stoi (dec config.port) = some (config.port : Int) := stoi_dec (by omega)
  have htoPort : toPort config.port = config.port := by
    unfold toPort
    omega
  have hyes : (bytes (if config.aofEnabled then "yes" else "no") == bytes "yes" ||
      bytes (if config.aofEnabled then "yes" else "no") == bytes "true" ||
      bytes (if config.aofEnabled then "yes" else "no") == bytes "1") = config.aofEnabled := by
    cases config.aofEnabled <;> decide
  have hpass : (lastSetting .requirepass (config.settingsOf threads)).getD
      (initial cores).requirepass = config.requirepass := lastSetting_requirepass config threads
  simp only [ofSettings, hport, henabled, hfile, hkeys, lastSetting_threads, hint, hthreads,
    Option.bind_some, Option.map_some, Option.getD_some, hstoi, htoPort, hyes,
    stoul_dec h.maxKeys, hpass]

theorem readable_settingsOf (h : Expressible cores config)
    (hrange : ∀ n ∈ threads, -2 ^ 31 ≤ n ∧ n < 2 ^ 31) :
    (config.settingsOf threads).all Readable = true := by
  have hlt := h.port
  refine List.all_eq_true.mpr fun p hp => ?_
  rcases mem_settingsOf.mp hp with rfl | rfl | rfl | rfl | ⟨n, hn, rfl⟩ | ⟨-, rfl⟩
  · have hstoi : stoi (dec config.port) = some (config.port : Int) := stoi_dec (by omega)
    simp [Readable, hstoi]
  · rfl
  · rfl
  · simp [Readable, stoul_dec h.maxKeys]
  · simp [Readable, stoi_stdToString (hrange n hn)]
  · rfl

theorem isToken_settingsOf (h : Expressible cores config) :
    ∀ p ∈ config.settingsOf threads, IsToken p.2 := by
  intro p hp
  rcases mem_settingsOf.mp hp with rfl | rfl | rfl | rfl | ⟨n, -, rfl⟩ | ⟨hne, rfl⟩
  · exact isToken_dec config.port
  · cases config.aofEnabled <;> decide
  · exact h.aofFilename
  · exact isToken_dec config.maxKeys
  · exact isToken_stdToString n
  · exact ⟨hne, h.requirepass⟩

/-- Whatever the settings are, no value leaves its type, and no word has a blank in it. -/
theorem expressible_ofSettings (htokens : ∀ p ∈ settings, IsToken p.2) :
    Expressible cores (ofSettings cores settings) := by
  have htoken : ∀ {s value}, lastSetting s settings = some value → IsToken value :=
    fun h => htokens _ (mem_of_lastSetting h)
  constructor
  · dsimp only [ofSettings]
    cases (lastSetting .port settings).bind stoi with
    | none => exact show 8080 < 2 ^ 16 by decide
    | some n =>
      simp only [Option.map_some, Option.getD_some, toPort]
      omega
  · dsimp only [ofSettings]
    cases hstoi : (lastSetting .threads settings).bind stoi with
    | none => exact Or.inl rfl
    | some n =>
      obtain ⟨value, -, hn⟩ := Option.bind_eq_some_iff.mp hstoi
      exact Or.inr ⟨n, stoi_range hn, rfl⟩
  · dsimp only [ofSettings]
    cases hvalue : lastSetting .requirepass settings with
    | none => exact fun c hc => absurd hc List.not_mem_nil
    | some value => exact (htoken hvalue).solid
  · dsimp only [ofSettings]
    cases hvalue : lastSetting .aofFilename settings with
    | none => exact show IsToken (bytes "database.aof") by decide
    | some value => exact htoken hvalue
  · dsimp only [ofSettings]
    cases hstoul : (lastSetting .maxKeys settings).bind stoul with
    | none => exact show 500000 < 2 ^ 64 by decide
    | some n =>
      obtain ⟨value, -, hn⟩ := Option.bind_eq_some_iff.mp hstoul
      exact stoul_lt hn

/-- **What a configuration file can say**, and nothing else: no password and no file name with a
blank in it, no number of threads beyond an `int`. -/
theorem expressible_iff (cores : Nat) (config : ServerConfig) :
    (∃ file, loadFromFile cores (some file) = some config) ↔ Expressible cores config := by
  constructor
  · rintro ⟨file, hload⟩
    rw [loadFromFile_eq] at hload
    split at hload
    · obtain rfl := Option.some.inj hload
      exact expressible_ofSettings fun p hp => isToken_of_mem_fileSettings hp
    · cases hload
  · intro h
    obtain ⟨threads, hthreads, hrange⟩ : ∃ threads : Option Int,
        (threads.map toSize).getD (initial cores).threadCount = config.threadCount ∧
          ∀ n ∈ threads, -2 ^ 31 ≤ n ∧ n < 2 ^ 31 := by
      rcases h.threadCount with hinitial | ⟨n, hn, hsize⟩
      · exact ⟨none, hinitial.symm, fun n hn => by cases hn⟩
      · exact ⟨some n, hsize.symm, fun m hm => by obtain rfl := Option.some.inj hm; exact hn⟩
    refine ⟨(config.settingsOf threads).flatMap settingLine, ?_⟩
    rw [loadFromFile_eq, fileSettings_flatMap (isToken_settingsOf h),
      if_pos (readable_settingsOf h hrange), ofSettings_settingsOf h hthreads hrange]

end ServerConfig

end KeyValueDb
