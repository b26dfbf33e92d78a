/-
# main: starting the server

What `main` does before the event loop: it reads the configuration file, lets the command line
replace the port and the number of threads, opens the log and replays it into an empty store.

An argument counts as one more setting at the end of the file if it is a number, and as nothing
if it is none (`configure_eq`): what the file cannot get wrong without ending the process, the
command line can.
-/
import KeyValueDb.Aof.Dispatched
import KeyValueDb.Command.Execute
import KeyValueDb.Config.ServerConfig
import KeyValueDb.ThreadPool.Pool
import Mathlib.Data.List.Infix

namespace KeyValueDb

open Lib RespParser

/-! ## 1. The configuration -/

/-- `arg.find(".conf") != npos`. -/
def namesConf (arg : Bytes) : Bool := decide (bytes ".conf" <:+: arg)

/-- The file that is read; `args` are the arguments behind the name of the program. -/
def configPath : List Bytes → Bytes
  | [] => bytes "server.conf"
  | arg :: _ => if namesConf arg then arg else bytes "server.conf"

namespace ServerConfig

/-- The first argument, where it is no file name, is the port. -/
def withPort (config : ServerConfig) : List Bytes → ServerConfig
  | [] => config
  | arg :: _ =>
    if namesConf arg then config
    else match stoi arg with
      | none => config
      | some n => { config with port := toPort n }

/-- The second argument is the number of threads. -/
def withThreads (config : ServerConfig) : List Bytes → ServerConfig
  | _ :: arg :: _ =>
    match stoi arg with
    | none => config
    | some n => { config with threadCount := toSize n }
  | _ => config

/-- The configuration of `main`; `none` when reading the file throws. -/
def configure (cores : Nat) (files : Bytes → Option Bytes) (args : List Bytes) :
    Option ServerConfig :=
  (loadFromFile cores (files (configPath args))).map fun config =>
    (config.withPort args).withThreads args

/-- The arguments as settings. -/
def argSettings (args : List Bytes) : List (Setting × Bytes) :=
  ((args.head?.filter fun arg => !namesConf arg).map (Setting.port, ·)).toList ++
    (args[1]?.map (Setting.threads, ·)).toList

/-- An argument is one more setting, if it is a number. -/
theorem withPort_ofSettings (cores : Nat) (settings : List (Setting × Bytes)) (args : List Bytes) :
    (ofSettings cores settings).withPort args =
      ofSettings cores (settings ++
        ((args.head?.filter fun arg => !namesConf arg).map (Setting.port, ·)).toList.filter
          Readable) := by
  cases args with
  | nil => simp [withPort]
  | cons arg args =>
    cases hconf : namesConf arg with
    | true => simp [withPort, hconf, Option.filter]
    | false =>
      cases harg : stoi arg with
      | none => simp [withPort, hconf, harg, Option.filter, Readable]
      | some n =>
        have hset := set_ofSettings cores settings (.port, arg)
        simp only [set, Readable, harg, Option.map_some, Option.isSome_some, if_true,
          Option.some.injEq] at hset
        simp [withPort, hconf, harg, Option.filter, Readable, hset]

theorem withThreads_ofSettings (cores : Nat) (settings : List (Setting × Bytes))
    (args : List Bytes) :
    (ofSettings cores settings).withThreads args =
      ofSettings cores (settings ++
        (args[1]?.map (Setting.threads, ·)).toList.filter Readable) := by
  rcases args with _ | ⟨first, _ | ⟨arg, args⟩⟩
  · simp [withThreads]
  · simp [withThreads]
  · cases harg : stoi arg with
    | none => simp [withThreads, harg, Readable]
    | some n =>
      have hset := set_ofSettings cores settings (.threads, arg)
      simp only [set, Readable, harg, Option.map_some, Option.isSome_some, if_true,
        Option.some.injEq] at hset
      simp [withThreads, harg, Readable, hset]

/-- **Where the configuration comes from.**  The command line goes before the file and the file
before the initial values; of each key the last value counts.  A value of the file that its key
does not take ends the process, an argument that is no number is passed over. -/
theorem configure_eq (cores : Nat) (files : Bytes → Option Bytes) (args : List Bytes) :
    let settings := (files (configPath args)).elim [] fileSettings
    configure cores files args =
      if settings.all Readable then
        some (ofSettings cores (settings ++ (argSettings args).filter Readable))
      else none := by
  have hload : loadFromFile cores (files (configPath args)) =
      if ((files (configPath args)).elim [] fileSettings).all Readable then
        some (ofSettings cores ((files (configPath args)).elim [] fileSettings))
      else none := by
    cases files (configPath args) with
    | none => rfl
    | some file => exact loadFromFile_eq cores file
  intro settings
  rw [configure, hload]
  by_cases hall : settings.all Readable = true
  · rw [if_pos hall, if_pos hall, Option.map_some, withPort_ofSettings, withThreads_ofSettings,
      argSettings, List.filter_append, List.append_assoc]
  · rw [if_neg hall, if_neg hall]
    rfl

/-! ## 2. The server -/

/-- What the event loop and the commands take from the configuration. -/
def ctx (hash : Bytes → Nat) (config : ServerConfig) : ServerCtx :=
  ⟨hash, config.requirepass, config.port, KeyValueDb.threadCount config.threadCount⟩

end ServerConfig

/-- The store, the log and the counters as the event loop finds them; `opens` is whether the log
could be opened.  `none` is a log whose replay is not defined. -/
def boot (lim : Limits) (hash : Bytes → Nat) (clock : Nat → Time) (startTime : Time)
    (enabled opens : Bool) (disk : Disk) : Option Db :=
  let aof := AofManager.construct enabled opens disk
  (if enabled then (aof.loadIntoStore lim hash clock .empty).map Prod.snd else some .empty).map
    fun store => ⟨store, if enabled then some aof else none, .fresh startTime⟩

end KeyValueDb
