import Mapache.Restorer.Planner

/-!
# Command line over configuration

The `Merge` trait of `commands/mod.rs` with its four field lists, `resolve_global`,
`resolve_global_with_extra` and the part of `parse_and_run` that calls them.

A field that the command line gives is to stay as given, and one that it does not give is to come
from the configuration (`Follows`). `merge_opt` is written the other way round, and a command gets
the configuration's value of a field that both give (`CliCommand.precedence_iff`).
-/

set_option autoImplicit false

namespace Mapache

open Lib

/-! ## Optional values in two layers -/

section Layers

variable {α : Type}

/-- The result is the first layer's value where that layer has one, then that of the second layer,
then the default. -/
def Follows (default result first second : Option α) : Prop :=
  (∀ v, first = some v → result = some v) ∧ (first = none → result = second.or default)

/-- No value of the first layer is in conflict with one of the second. -/
def Agree (first second : Option α) : Prop := ∀ v w, first = some v → second = some w → v = w

theorem follows_iff {default result first second : Option α} :
    Follows default result first second ↔ result = (first.or second).or default := by
  cases first with
  | none => simp [Follows]
  | some v => simp [Follows]

/-- `merge_opt`. -/
def mergeOpt (dst src : Option α) : Option α := if src.isSome then src else dst

theorem mergeOpt_eq_or (dst src : Option α) : mergeOpt dst src = src.or dst := by
  cases src with
  | none => rfl
  | some v => rfl

/-- The second layer of `merge_opt` is on top: the first one wins only where both say the same. -/
theorem follows_mergeOpt_iff {default first second : Option α} :
    Follows default ((mergeOpt first second).or default) first second ↔ Agree first second := by
  rw [follows_iff, mergeOpt_eq_or]
  cases first with
  | none => simp [Agree]
  | some v =>
    cases second with
    | none => simp [Agree]
    | some w => simp [Agree, eq_comm]

end Layers

/-! ## Records of optional fields -/

/-- An optional single-valued field of the arguments `σ`, with its default and the place in the
resolved options `ρ` that it ends in. -/
structure OptField (σ ρ : Type) where
  Value : Type
  given : σ → Option Value
  default : Option Value
  resolved : ρ → Option Value

/-- A field that is read where it is given. -/
def OptField.own {σ α : Type} (get : σ → Option α) : OptField σ σ := ⟨α, get, none, get⟩

section Records

variable {σ ρ : Type}

/-- Every field follows the command line, then the section of the configuration. -/
def CommandLineWins (fields : List (OptField σ ρ)) (cli : σ) (config : Option σ) (result : ρ) :
    Prop :=
  ∀ f ∈ fields, Follows f.default (f.resolved result) (f.given cli) (config.bind f.given)

/-- No field is given a value by the command line and another one by the configuration. -/
def Compatible (fields : List (OptField σ ρ)) (cli : σ) (config : Option σ) : Prop :=
  ∀ f ∈ fields, Agree (f.given cli) (config.bind f.given)

/-- `Merge`. -/
class Merge (σ : Type) where
  merge : σ → σ → σ

/-- `if let Some(cfg) = … { self.merge(cfg.clone()) }`. -/
def mergeConfig [Merge σ] (self : σ) (config : Option σ) : σ :=
  match config with
  | some cfg => Merge.merge self cfg
  | none => self

/-- The fields that `merge` hands to `merge_opt`. -/
class MergesFields (σ : Type) extends Merge σ where
  fields : List (OptField σ σ)
  own : ∀ f ∈ fields, f = OptField.own f.given
  given_merge : ∀ f ∈ fields, ∀ a b : σ, f.given (merge a b) = mergeOpt (f.given a) (f.given b)

end Records

/-! ## The arguments -/

/-- An `f32`, by its bits. -/
structure F32 where
  bits : UInt32
  deriving DecidableEq

/-- `Compression`. -/
inductive Compression where
  | manual (level : Int)
  | fastest
  | fast
  | balanced
  | better
  | best
  deriving DecidableEq

/-- `UseSnapshot`. -/
inductive UseSnapshot where
  | latest
  | snapshotId (pre : String)
  deriving DecidableEq

/-- `DEFAULT_PACK_SIZE_MIB`, 16.0. -/
def defaultPackSizeMib : F32 := ⟨0x41800000⟩

/-- `DEFAULT_COMPRESSION`. -/
def compressionDefault : Compression := .fast

/-- `HookArgs`. -/
structure HookArgs where
  preHook : Option String
  postHook : Option String

/-- `CliGlobalArgs`. A path is its bytes. -/
structure CliGlobalArgs where
  repo : Option String
  noCache : Option Bool
  sshPrivatekey : Option Bytes
  sshKnownHosts : Option Bytes
  authFile : Option Bytes
  packSizeMib : Option F32
  key : Option Bytes
  quiet : Option Bool
  json : Option Bool
  verbosity : Option UInt32
  compressionLevel : Option Compression
  retryLockDuration : Option Int
  limitUpload : Option UInt64
  limitDownload : Option UInt64
  noLock : Option Bool
  deriving Inhabited

instance : Merge CliGlobalArgs where
  merge self other :=
    { repo := mergeOpt self.repo other.repo
      noCache := mergeOpt self.noCache other.noCache
      sshPrivatekey := mergeOpt self.sshPrivatekey other.sshPrivatekey
      sshKnownHosts := mergeOpt self.sshKnownHosts other.sshKnownHosts
      authFile := mergeOpt self.authFile other.authFile
      packSizeMib := mergeOpt self.packSizeMib other.packSizeMib
      key := mergeOpt self.key other.key
      quiet := mergeOpt self.quiet other.quiet
      json := mergeOpt self.json other.json
      verbosity := mergeOpt self.verbosity other.verbosity
      compressionLevel := mergeOpt self.compressionLevel other.compressionLevel
      retryLockDuration := mergeOpt self.retryLockDuration other.retryLockDuration
      limitUpload := mergeOpt self.limitUpload other.limitUpload
      limitDownload := mergeOpt self.limitDownload other.limitDownload
      noLock := mergeOpt self.noLock other.noLock }

/-- `GlobalArgs`. -/
structure GlobalArgs where
  repo : String
  noCache : Bool
  sshPrivatekey : Option Bytes
  sshKnownHosts : Option Bytes
  authFile : Option Bytes
  packSizeMib : F32
  key : Option Bytes
  quiet : Bool
  json : Bool
  verbosity : Option UInt32
  compressionLevel : Compression
  retryLockDuration : Option Int
  limitUpload : Option UInt64
  limitDownload : Option UInt64
  noLock : Bool

/-- `cli_to_global_args`; `env` is the value of `MAPACHE_REPOSITORY`. -/
def cliToGlobalArgs (env : Option String) (cli : CliGlobalArgs) : Except String GlobalArgs :=
  match cli.repo.or env with
  | none =>
    .error <|
      "Repository path is required. Use --repo, set MAPACHE_REPOSITORY, " ++
        "or add it to config file."
  | some repo =>
    .ok
      { repo
        noCache := cli.noCache.getD false
        sshPrivatekey := cli.sshPrivatekey
        sshKnownHosts := cli.sshKnownHosts
        authFile := cli.authFile
        packSizeMib := cli.packSizeMib.getD defaultPackSizeMib
        key := cli.key
        quiet := cli.quiet.getD false
        json := cli.json.getD false
        verbosity := cli.verbosity
        compressionLevel := cli.compressionLevel.getD compressionDefault
        retryLockDuration := cli.retryLockDuration
        limitUpload := cli.limitUpload
        limitDownload := cli.limitDownload
        noLock := cli.noLock.getD false }

/-- The global options, each with its default and with its place in `GlobalArgs`. -/
def globalFields (env : Option String) : List (OptField CliGlobalArgs GlobalArgs) :=
  [⟨_, CliGlobalArgs.repo, env, fun g => some g.repo⟩,
    ⟨_, CliGlobalArgs.noCache, some false, fun g => some g.noCache⟩,
    ⟨_, CliGlobalArgs.sshPrivatekey, none, GlobalArgs.sshPrivatekey⟩,
    ⟨_, CliGlobalArgs.sshKnownHosts, none, GlobalArgs.sshKnownHosts⟩,
    ⟨_, CliGlobalArgs.authFile, none, GlobalArgs.authFile⟩,
    ⟨_, CliGlobalArgs.packSizeMib, some defaultPackSizeMib, fun g => some g.packSizeMib⟩,
    ⟨_, CliGlobalArgs.key, none, GlobalArgs.key⟩,
    ⟨_, CliGlobalArgs.quiet, some false, fun g => some g.quiet⟩,
    ⟨_, CliGlobalArgs.json, some false, fun g => some g.json⟩,
    ⟨_, CliGlobalArgs.verbosity, none, GlobalArgs.verbosity⟩,
    ⟨_, CliGlobalArgs.compressionLevel, some compressionDefault, fun g => some g.compressionLevel⟩,
    ⟨_, CliGlobalArgs.retryLockDuration, none, GlobalArgs.retryLockDuration⟩,
    ⟨_, CliGlobalArgs.limitUpload, none, GlobalArgs.limitUpload⟩,
    ⟨_, CliGlobalArgs.limitDownload, none, GlobalArgs.limitDownload⟩,
    ⟨_, CliGlobalArgs.noLock, some false, fun g => some g.noLock⟩]

theorem given_mergeGlobal (env : Option String) : ∀ f ∈ globalFields env, ∀ a b : CliGlobalArgs,
    f.given (Merge.merge a b) = mergeOpt (f.given a) (f.given b) := by
  simp only [globalFields, List.forall_mem_cons]
  refine ⟨?_, ?_, ?_, ?_, ?_, ?_, ?_, ?_, ?_, ?_, ?_, ?_, ?_, ?_, ?_, List.forall_mem_nil _⟩
  all_goals
    intro a b
    rfl

/-- The conversion takes every field as it is given, else its default. -/
theorem resolved_cliToGlobalArgs {env : Option String} {cli : CliGlobalArgs} {g : GlobalArgs}
    (h : cliToGlobalArgs env cli = .ok g) :
    ∀ f ∈ globalFields env, f.resolved g = (f.given cli).or f.default := by
  unfold cliToGlobalArgs at h
  split at h
  · cases h
  · rename_i repo hrepo
    cases h
    simp [globalFields, hrepo]

theorem exists_cliToGlobalArgs_iff {env : Option String} {cli : CliGlobalArgs} :
    (∃ g, cliToGlobalArgs env cli = .ok g) ↔ ¬ (cli.repo = none ∧ env = none) := by
  rw [← Option.or_eq_none_iff]
  cases h : cli.repo.or env with
  | none => simp [cliToGlobalArgs, h]
  | some repo => simp [cliToGlobalArgs, h]

namespace CmdSnapshot

/-- `cmd_snapshot::CmdArgs`. -/
structure CmdArgs where
  paths : List Bytes
  asRoot : Option Bool
  exclude : Option (List String)
  excludeFile : Option Bytes
  tagsStr : Option String
  description : Option String
  noParent : Bool
  noScan : Option Bool
  skipIfUnchanged : Option Bool
  parent : Option UseSnapshot
  numReaders : Option Nat
  numPackers : Option Nat
  dryRun : Bool
  withAtime : Option Bool
  stdin : Bool
  hookArgs : HookArgs

/-- `merge_option_vec`: what the configuration lists comes behind. -/
def mergeOptionVec {α : Type} (left right : Option (List α)) : Option (List α) :=
  match left, right with
  | some l, some r => some (l ++ r)
  | none, some r => some r
  | some l, none => some l
  | none, none => none

instance : Merge CmdArgs where
  merge self other :=
    { self with
      paths := if !other.paths.isEmpty then other.paths else self.paths
      asRoot := mergeOpt self.asRoot other.asRoot
      exclude := mergeOptionVec self.exclude other.exclude
      excludeFile := mergeOpt self.excludeFile other.excludeFile
      tagsStr := mergeOpt self.tagsStr other.tagsStr
      description := mergeOpt self.description other.description
      noScan := mergeOpt self.noScan other.noScan
      skipIfUnchanged := mergeOpt self.skipIfUnchanged other.skipIfUnchanged
      parent := mergeOpt self.parent other.parent
      numReaders := mergeOpt self.numReaders other.numReaders
      numPackers := mergeOpt self.numPackers other.numPackers
      withAtime := mergeOpt self.withAtime other.withAtime }

instance : MergesFields CmdArgs where
  fields :=
    [.own CmdArgs.asRoot, .own CmdArgs.excludeFile, .own CmdArgs.tagsStr, .own CmdArgs.description,
      .own CmdArgs.noScan, .own CmdArgs.skipIfUnchanged, .own CmdArgs.parent,
      .own CmdArgs.numReaders, .own CmdArgs.numPackers, .own CmdArgs.withAtime]
  own := by simp [OptField.own]
  given_merge := by simp [OptField.own, Merge.merge]

end CmdSnapshot

namespace CmdRestore

/-- `cmd_restore::CmdArgs`. -/
structure CmdArgs where
  snapshot : UseSnapshot
  target : Option Bytes
  «include» : Option (List String)
  includeFile : Option Bytes
  exclude : Option (List String)
  excludeFile : Option Bytes
  stripPrefix : Option Bool
  strategy : Option Strategy
  delete : Option Bool
  noPreserveRoot : Option Bool
  quitOnError : Option Bool
  sparse : Option Bool
  verify : Option Bool
  batchSize : Option Nat
  dryRun : Bool
  hookArgs : HookArgs

instance : Merge CmdArgs where
  merge self other :=
    { self with
      target := mergeOpt self.target other.target
      «include» := mergeOpt self.include other.include
      includeFile := mergeOpt self.includeFile other.includeFile
      exclude := mergeOpt self.exclude other.exclude
      excludeFile := mergeOpt self.excludeFile other.excludeFile
      stripPrefix := mergeOpt self.stripPrefix other.stripPrefix
      strategy := mergeOpt self.strategy other.strategy
      delete := mergeOpt self.delete other.delete
      noPreserveRoot := mergeOpt self.noPreserveRoot other.noPreserveRoot
      quitOnError := mergeOpt self.quitOnError other.quitOnError
      sparse := mergeOpt self.sparse other.sparse
      verify := mergeOpt self.verify other.verify
      batchSize := mergeOpt self.batchSize other.batchSize }

instance : MergesFields CmdArgs where
  fields :=
    [.own CmdArgs.target, .own CmdArgs.includeFile, .own CmdArgs.excludeFile,
      .own CmdArgs.stripPrefix, .own CmdArgs.strategy, .own CmdArgs.delete,
      .own CmdArgs.noPreserveRoot, .own CmdArgs.quitOnError, .own CmdArgs.sparse,
      .own CmdArgs.verify, .own CmdArgs.batchSize]
  own := by simp [OptField.own]
  given_merge := by simp [OptField.own, Merge.merge]

end CmdRestore

namespace CmdForget

/-- `cmd_forget::CmdArgs`. -/
structure CmdArgs where
  forget : List String
  force : Bool
  tagsStr : Option String
  hosts : List String
  keepLast : Option Nat
  keepWithin : Option Int
  keepYearly : Option Nat
  keepMonthly : Option Nat
  keepWeekly : Option Nat
  keepDaily : Option Nat
  keepHourly : Option Nat
  keepTags : Option String
  keepMin : Option Nat
  dryRun : Bool
  runGc : Bool
  tolerance : Option F32
  hookArgs : HookArgs

instance : Merge CmdArgs where
  merge self other :=
    { self with
      forget := if !other.forget.isEmpty then other.forget else self.forget
      tagsStr := mergeOpt self.tagsStr other.tagsStr
      hosts := if !other.hosts.isEmpty then other.hosts else self.hosts
      keepLast := mergeOpt self.keepLast other.keepLast
      keepWithin := mergeOpt self.keepWithin other.keepWithin
      keepYearly := mergeOpt self.keepYearly other.keepYearly
      keepMonthly := mergeOpt self.keepMonthly other.keepMonthly
      keepWeekly := mergeOpt self.keepWeekly other.keepWeekly
      keepDaily := mergeOpt self.keepDaily other.keepDaily
      keepHourly := mergeOpt self.keepHourly other.keepHourly
      keepTags := mergeOpt self.keepTags other.keepTags
      keepMin := mergeOpt self.keepMin other.keepMin
      tolerance := mergeOpt self.tolerance other.tolerance }

instance : MergesFields CmdArgs where
  fields :=
    [.own CmdArgs.tagsStr, .own CmdArgs.keepLast, .own CmdArgs.keepWithin, .own CmdArgs.keepYearly,
      .own CmdArgs.keepMonthly, .own CmdArgs.keepWeekly, .own CmdArgs.keepDaily,
      .own CmdArgs.keepHourly, .own CmdArgs.keepTags, .own CmdArgs.keepMin, .own CmdArgs.tolerance]
  own := by simp [OptField.own]
  given_merge := by simp [OptField.own, Merge.merge]

end CmdForget

/-! ## The commands -/

/-- `WithGlobal`. -/
structure WithGlobal (σ : Type) where
  globals : CliGlobalArgs
  args : σ

/-- The sections of `MapacheConfig` that are merged into arguments. -/
structure MapacheConfig where
  globals : Option CliGlobalArgs
  snapshot : Option CmdSnapshot.CmdArgs
  restore : Option CmdRestore.CmdArgs
  forget : Option CmdForget.CmdArgs

/-- `Command` of `commands/mod.rs`. The commands without a section of their own are `other`. -/
inductive CliCommand where
  | forget (cmd : WithGlobal CmdForget.CmdArgs)
  | restore (cmd : WithGlobal CmdRestore.CmdArgs)
  | snapshot (cmd : WithGlobal CmdSnapshot.CmdArgs)
  | other (globals : CliGlobalArgs)

section Resolve

variable (env : Option String)

/-- `resolve_global`. -/
def resolveGlobal (cli : CliGlobalArgs) (config : MapacheConfig) : Except String GlobalArgs :=
  cliToGlobalArgs env (mergeConfig cli config.globals)

/-- `resolve_global_with_extra`. -/
def resolveGlobalWithExtra {σ : Type} [Merge σ] (cmd : WithGlobal σ) (config : MapacheConfig)
    (extra : Option σ) : Except String GlobalArgs × WithGlobal σ :=
  let cmd := { cmd with args := mergeConfig cmd.args extra }
  (resolveGlobal env cmd.globals config, cmd)

/-- The `match args.command` of `parse_and_run`. -/
def CliCommand.resolve (config : MapacheConfig) : CliCommand → Except String GlobalArgs × CliCommand
  | .forget cmd =>
    let (g, cmd) := resolveGlobalWithExtra env cmd config config.forget
    (g, .forget cmd)
  | .restore cmd =>
    let (g, cmd) := resolveGlobalWithExtra env cmd config config.restore
    (g, .restore cmd)
  | .snapshot cmd =>
    let (g, cmd) := resolveGlobalWithExtra env cmd config config.snapshot
    (g, .snapshot cmd)
  | .other globals => (resolveGlobal env globals config, .other globals)

end Resolve

/-! ## Which one wins -/

/-- The global options of a command. -/
def CliCommand.globals : CliCommand → CliGlobalArgs
  | .forget cmd => cmd.globals
  | .restore cmd => cmd.globals
  | .snapshot cmd => cmd.globals
  | .other globals => globals

/-- The fields that a command merges itself follow its command line. -/
def CliCommand.ArgsFollow (config : MapacheConfig) : CliCommand → CliCommand → Prop
  | .forget cli, .forget result =>
    CommandLineWins MergesFields.fields cli.args config.forget result.args
  | .restore cli, .restore result =>
    CommandLineWins MergesFields.fields cli.args config.restore result.args
  | .snapshot cli, .snapshot result =>
    CommandLineWins MergesFields.fields cli.args config.snapshot result.args
  | .other _, .other _ => True
  | _, _ => False

/-- The command line wins over the configuration, in the global options of a command that gets any
and in the command's own arguments. -/
def CliCommand.Precedence (env : Option String) (config : MapacheConfig) (cli : CliCommand) : Prop :=
  (∀ g, (cli.resolve env config).1 = .ok g →
    CommandLineWins (globalFields env) cli.globals config.globals g) ∧
    cli.ArgsFollow config (cli.resolve env config).2

/-- Neither the command line, nor the configuration, nor the environment names a repository: the
command ends with an error before it reads an option. -/
def CliCommand.NoRepo (env : Option String) (config : MapacheConfig) (cli : CliCommand) : Prop :=
  cli.globals.repo = none ∧ config.globals.bind CliGlobalArgs.repo = none ∧ env = none

/-- No field of the command's own arguments is given two values. -/
def CliCommand.ArgsCompatible (config : MapacheConfig) : CliCommand → Prop
  | .forget cli => Compatible MergesFields.fields cli.args config.forget
  | .restore cli => Compatible MergesFields.fields cli.args config.restore
  | .snapshot cli => Compatible MergesFields.fields cli.args config.snapshot
  | .other _ => True

/-- A section that is there is merged, one that is not changes nothing. -/
theorem given_mergeConfig {σ : Type} [Merge σ] {α : Type} {given : σ → Option α}
    (h : ∀ a b, given (Merge.merge a b) = mergeOpt (given a) (given b)) (cli : σ)
    (config : Option σ) :
    given (mergeConfig cli config) = mergeOpt (given cli) (config.bind given) := by
  cases config with
  | none => rfl
  | some cfg => exact h cli cfg

theorem commandLineWins_mergeConfig_iff {σ : Type} [MergesFields σ] (cli : σ) (config : Option σ) :
    CommandLineWins MergesFields.fields cli config (mergeConfig cli config) ↔
      Compatible MergesFields.fields cli config := by
  refine forall₂_congr fun f hf => ?_
  -- a command's own field has no default: what is given nowhere stays away
  have hown : f.default = none ∧ f.resolved = f.given := by
    rw [MergesFields.own f hf]
    exact ⟨rfl, rfl⟩
  rw [hown.1, hown.2, given_mergeConfig (MergesFields.given_merge f hf)]
  have h := @follows_mergeOpt_iff _ none (f.given cli) (config.bind f.given)
  rwa [Option.or_none] at h

theorem commandLineWins_resolveGlobal_iff {env : Option String} {cli : CliGlobalArgs}
    {config : MapacheConfig} {g : GlobalArgs} (h : resolveGlobal env cli config = .ok g) :
    CommandLineWins (globalFields env) cli config.globals g ↔
      Compatible (globalFields env) cli config.globals := by
  refine forall₂_congr fun f hf => ?_
  rw [resolved_cliToGlobalArgs h f hf, given_mergeConfig (given_mergeGlobal env f hf)]
  exact follows_mergeOpt_iff

theorem exists_resolveGlobal_iff {env : Option String} {cli : CliGlobalArgs}
    {config : MapacheConfig} :
    (∃ g, resolveGlobal env cli config = .ok g) ↔
      ¬ (cli.repo = none ∧ config.globals.bind CliGlobalArgs.repo = none ∧ env = none) := by
  have hrepo : (mergeConfig cli config.globals).repo =
      mergeOpt cli.repo (config.globals.bind CliGlobalArgs.repo) :=
    given_mergeConfig (fun _ _ => rfl) cli config.globals
  rw [resolveGlobal, exists_cliToGlobalArgs_iff, hrepo, mergeOpt_eq_or, Option.or_eq_none_iff,
    and_left_comm, and_assoc]

/-- The global part of the precedence. -/
theorem globals_follow_iff (env : Option String) (cli : CliGlobalArgs) (config : MapacheConfig) :
    (∀ g, resolveGlobal env cli config = .ok g →
        CommandLineWins (globalFields env) cli config.globals g) ↔
      (cli.repo = none ∧ config.globals.bind CliGlobalArgs.repo = none ∧ env = none) ∨
        Compatible (globalFields env) cli config.globals := by
  constructor
  · intro h
    -- without a repository there are no global options that could follow anything
    by_cases hrepo :
      cli.repo = none ∧ config.globals.bind CliGlobalArgs.repo = none ∧ env = none
    · exact .inl hrepo
    · obtain ⟨g, hg⟩ := exists_resolveGlobal_iff.mpr hrepo
      exact .inr ((commandLineWins_resolveGlobal_iff hg).mp (h g hg))
  · rintro (hrepo | hcompat) g hg
    · exact absurd hrepo (exists_resolveGlobal_iff.mp ⟨g, hg⟩)
    · exact (commandLineWins_resolveGlobal_iff hg).mpr hcompat

/-- The command line wins exactly where no option is given two values, up to a command that has no
repository to run on. -/
theorem CliCommand.precedence_iff (env : Option String) (config : MapacheConfig) (cli : CliCommand) :
    cli.Precedence env config ↔
      (cli.NoRepo env config ∨ Compatible (globalFields env) cli.globals config.globals) ∧
        cli.ArgsCompatible config := by
  cases cli with
  | forget | restore | snapshot =>
    exact and_congr (globals_follow_iff env _ _) (commandLineWins_mergeConfig_iff _ _)
  | other globals => exact and_congr (globals_follow_iff env _ _) Iff.rfl

/-- `--repo /a` with a configuration that names `/b`: the command runs on `/b`. -/
theorem CliCommand.not_precedence_repo :
    ¬ ∀ (env : Option String) (config : MapacheConfig) (cli : CliCommand),
      cli.Precedence env config := by
  intro h
  let cli : CliGlobalArgs := { (default : CliGlobalArgs) with repo := some "/a" }
  let config : MapacheConfig :=
    ⟨some { (default : CliGlobalArgs) with repo := some "/b" }, none, none, none⟩
  obtain hrepo | hcompat := (globals_follow_iff none cli config).mp (h none config (.other cli)).1
  · cases hrepo.1
  · -- the first field is the repository
    have hagree := hcompat _ List.mem_cons_self
    exact absurd (hagree "/a" "/b" rfl rfl) (by decide)

end Mapache
