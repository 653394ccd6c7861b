import Mathlib.Data.List.Count

/-!
`main_advanced.c`: the start-up of `main`, its unwinding at `cleanup:`, and the event loop
`run_main_loop` with `handle_signal`. The functions `main` calls from the headers missing from
the sources (`logging.h`, `config.h`, `thread_pool.h`, `plugin_manager.h`) and from the system
are answered by an environment, each with success or failure; a run's log is the list of those
calls in order. The loop is fed one round of `select` per iteration and stops at the first
SIGINT or SIGTERM read whole or at the first `select` failure other than EINTR. Every
start-up failure is unwound, but the plugin manager of a successful `load_backend_plugins` is
never destroyed. `setup_signal_handling` compares what `pthread_sigmask` returns with -1, which
it never returns: a failure to block the signals goes unnoticed, and the start-up goes on to
`signalfd`.
-/

namespace UltraBalancer.Main

/-- `SIGINT`, as on Linux. -/
def SIGINT : Int := 2

/-- `SIGTERM`, as on Linux. -/
def SIGTERM : Int := 15

/-- `sizeof(struct signalfd_siginfo)`. -/
def SIGINFO_SIZE : Int := 128

def EXIT_SUCCESS : Int := 0

def EXIT_FAILURE : Int := 1

/-- `handle_signal(signum)` on `g_running`: SIGINT and SIGTERM clear it; SIGHUP, whose reload
is a TODO, SIGPIPE and any other signal are only logged. -/
def handleSignal (running : Bool) (signum : Int) : Bool :=
  if signum = SIGINT ∨ signum = SIGTERM then false else running

/-- What one iteration of `run_main_loop` gets from the system. -/
inductive Round
  /-- `select` returned a negative value; `eintr` is whether `errno == EINTR`. -/
  | failed (eintr : Bool)
  /-- `select` returned: whether the signal descriptor is in the read set, what the `read` of
  a `signalfd_siginfo` returned, and the `ssi_signo` it read. -/
  | selected (readable : Bool) (bytes : Int) (signo : Int)
  deriving DecidableEq, Repr

/-- The body of `run_main_loop`'s `while`, with `g_running` at `running`: `none` when it
leaves by `break`, else `g_running` after it, a `continue` included. The periodic metrics
only log. -/
def loopBody (running : Bool) : Round → Option Bool
  | .failed eintr => if eintr then some running else none
  | .selected readable bytes signo =>
    some (if readable ∧ bytes = SIGINFO_SIZE then handleSignal running signo else running)

/-- `run_main_loop(signal_fd)` from `g_running = running`, one round per iteration: what it
returns, `g_running` then, and the rounds it did not take; `none` when the rounds run out
while the loop still runs. -/
def runMainLoop : Bool → List Round → Option (Int × Bool × List Round)
  | false, rounds => some (0, false, rounds)
  | true, [] => none
  | true, r :: rest =>
    match loopBody true r with
    | some running => runMainLoop running rest
    | none => some (0, true, rest)

/-- Whether a round ends the loop: a `select` failure other than EINTR, or SIGINT or SIGTERM
read whole from the signal descriptor. -/
def Round.ends : Round → Bool
  | .failed eintr => !eintr
  | .selected readable bytes signo =>
    readable && bytes == SIGINFO_SIZE && (signo == SIGINT || signo == SIGTERM)

theorem loopBody_of_not_ends {r : Round} (goesOn : r.ends = false) : loopBody true r = some true := by
  cases r with
  | failed eintr => cases eintr <;> simp_all [Round.ends, loopBody]
  | selected readable bytes signo =>
    simp only [Round.ends, Bool.and_eq_false_iff, beq_eq_false_iff_ne, Bool.or_eq_false_iff] at goesOn
    by_cases whole : readable = true ∧ bytes = SIGINFO_SIZE
    · simp only [loopBody, handleSignal, if_pos whole]
      rw [if_neg]
      simp_all
    · simp only [loopBody, if_neg whole]

theorem loopBody_of_ends {r : Round} (stops : r.ends) :
    loopBody true r = if r = .failed false then none else some false := by
  cases r with
  | failed eintr => cases eintr <;> simp_all [Round.ends, loopBody]
  | selected readable bytes signo =>
    simp only [Round.ends, Bool.and_eq_true, beq_iff_eq, Bool.or_eq_true] at stops
    obtain ⟨⟨readable, whole⟩, signal⟩ := stops
    simp [loopBody, handleSignal, readable, whole, signal]

/-- The loop runs on over every round that does not end it, and returns 0 right after the
first that does, leaving the rounds after it untaken; `g_running` is then still set exactly
when a `select` failure ended it. -/
theorem main_loop_exits_at_first :
    (∀ rounds, (∀ r ∈ rounds, r.ends = false) → runMainLoop true rounds = none) ∧
    (∀ pre r post, (∀ x ∈ pre, x.ends = false) → r.ends →
      runMainLoop true (pre ++ r :: post) = some (0, decide (r = .failed false), post)) := by
  refine ⟨fun rounds => ?_, fun pre r post => ?_⟩
  · induction rounds with
    | nil => intro; rfl
    | cons r rest ih =>
      intro goOn
      simp only [runMainLoop, loopBody_of_not_ends (goOn r (List.mem_cons_self r rest))]
      exact ih fun x mem => goOn x (List.mem_cons_of_mem r mem)
  · induction pre with
    | nil =>
      intro _ stops
      simp only [List.nil_append, runMainLoop, loopBody_of_ends stops]
      split <;> simp_all [runMainLoop]
    | cons x pre ih =>
      intro goOn stops
      simp only [List.cons_append, runMainLoop, loopBody_of_not_ends (goOn x (List.mem_cons_self x pre))]
      exact ih (fun y mem => goOn y (List.mem_cons_of_mem x mem)) stops

/-- A call `main` makes to a function of the missing headers or to the system. -/
inductive MainCall
  | loggingInit
  | configInit
  | configLoadFromFile
  | configValidate
  | pthreadSigmask
  | signalfd
  | threadPoolCreate
  | pluginManagerCreate
  | pluginManagerLoad (i : Nat)
  | pluginManagerSetDefaultAlgorithm
  | pluginManagerDestroy
  | close
  | threadPoolShutdown
  | threadPoolDestroy
  | configCleanup
  | loggingCleanup
  deriving DecidableEq, Repr

/-- The answers `main` gets: each function of the missing headers succeeds or fails,
`pthread_sigmask` returns 0 or an error number, `signalfd` returns a descriptor or -1, and the
event loop gets its rounds. -/
structure MainEnv where
  loggingInit : Bool
  configLoad : Bool
  configValidate : Bool
  sigmask : Int
  sigmaskNonneg : 0 ≤ sigmask
  signalfd : Int
  threadPoolCreate : Bool
  pluginManagerCreate : Bool
  pluginCount : Int
  pluginLoad : Nat → Bool
  setDefaultAlgorithm : Bool
  rounds : List Round

/-- `initialize_logging()`. -/
def initializeLogging (env : MainEnv) : Int × List MainCall :=
  (if env.loggingInit then 0 else -1, [.loggingInit])

/-- `load_configuration(config_file)`. -/
def loadConfiguration (env : MainEnv) : Int × List MainCall :=
  if !env.configLoad then (-1, [.configInit, .configLoadFromFile])
  else if !env.configValidate then (-1, [.configInit, .configLoadFromFile, .configValidate])
  else (0, [.configInit, .configLoadFromFile, .configValidate])

/-- `setup_signal_handling()`: the signal descriptor, or -1. -/
def setupSignalHandling (env : MainEnv) : Int × List MainCall :=
  if env.sigmask = -1 then (-1, [.pthreadSigmask])
  else if env.signalfd = -1 then (-1, [.pthreadSigmask, .signalfd])
  else (env.signalfd, [.pthreadSigmask, .signalfd])

/-- `initialize_thread_pool()`; `g_thread_pool` is set exactly when it returns 0. -/
def initializeThreadPool (env : MainEnv) : Int × List MainCall :=
  (if env.threadPoolCreate then 0 else -1, [.threadPoolCreate])

/-- The loading loop of `load_backend_plugins` from plugin `i`, with `n` plugins left:
whether every load succeeded, and the loads made, up to the first that failed. -/
def loadPlugins (env : MainEnv) (i : Nat) : Nat → Bool × List MainCall
  | 0 => (true, [])
  | n + 1 =>
    if env.pluginLoad i then
      ((loadPlugins env (i + 1) n).1, .pluginManagerLoad i :: (loadPlugins env (i + 1) n).2)
    else (false, [.pluginManagerLoad i])

/-- `load_backend_plugins()`. The manager it creates is destroyed on its failure paths; on
success the pointer is dropped. -/
def loadBackendPlugins (env : MainEnv) : Int × List MainCall :=
  if !env.pluginManagerCreate then (-1, [.pluginManagerCreate])
  else
    let loads := loadPlugins env 0 env.pluginCount.toNat
    if !loads.1 then (-1, .pluginManagerCreate :: loads.2 ++ [.pluginManagerDestroy])
    else if !env.setDefaultAlgorithm then
      (-1, .pluginManagerCreate :: loads.2 ++
        [.pluginManagerSetDefaultAlgorithm, .pluginManagerDestroy])
    else (0, .pluginManagerCreate :: loads.2 ++ [.pluginManagerSetDefaultAlgorithm])

/-- `main`'s `cleanup:`, with `signal_fd` and whether `g_thread_pool` is set. -/
def cleanup (signalFd : Int) (pool : Bool) : List MainCall :=
  (if 0 ≤ signalFd then [.close] else []) ++
    (if pool then [.threadPoolShutdown, .threadPoolDestroy] else []) ++
    [.configCleanup, .loggingCleanup]

/-- `main(argc, argv)`: its exit status and the calls it made, or `none` while its event loop
still runs. -/
def main (env : MainEnv) : Option (Int × List MainCall) :=
  let logging := initializeLogging env
  if logging.1 ≠ 0 then some (EXIT_FAILURE, logging.2 ++ cleanup (-1) false)
  else
    let config := loadConfiguration env
    if config.1 ≠ 0 then some (EXIT_FAILURE, logging.2 ++ config.2 ++ cleanup (-1) false)
    else
      let signals := setupSignalHandling env
      if signals.1 < 0 then
        some (EXIT_FAILURE, logging.2 ++ config.2 ++ signals.2 ++ cleanup signals.1 false)
      else
        let pool := initializeThreadPool env
        if pool.1 ≠ 0 then
          some (EXIT_FAILURE,
            logging.2 ++ config.2 ++ signals.2 ++ pool.2 ++ cleanup signals.1 false)
        else
          let plugins := loadBackendPlugins env
          if plugins.1 ≠ 0 then
            some (EXIT_FAILURE, logging.2 ++ config.2 ++ signals.2 ++ pool.2 ++ plugins.2 ++
              cleanup signals.1 true)
          else
            (runMainLoop true env.rounds).map fun loop =>
              (if loop.1 ≠ 0 then EXIT_FAILURE else EXIT_SUCCESS,
                logging.2 ++ config.2 ++ signals.2 ++ pool.2 ++ plugins.2 ++
                  cleanup signals.1 true)

theorem loadPlugins_ok (env : MainEnv) (n : Nat) : ∀ i,
    (loadPlugins env i n).1 = true ↔ ∀ j < n, env.pluginLoad (i + j) = true := by
  induction n with
  | zero => intro i; simp [loadPlugins]
  | succ n ih =>
    intro i
    by_cases loaded : env.pluginLoad i
    · simp only [loadPlugins, loaded, if_true, ih (i + 1)]
      refine ⟨fun rest j below => ?_, fun all j below => ?_⟩
      · cases j with
        | zero => exact loaded
        | succ j => simpa [Nat.add_assoc, Nat.add_comm 1 j] using rest j (by omega)
      · simpa [Nat.add_assoc, Nat.add_comm 1 j] using all (j + 1) (by omega)
    · simp only [loadPlugins, loaded, Bool.false_eq_true, if_false, false_iff, not_forall]
      exact ⟨0, by omega, loaded⟩

theorem runMainLoop_zero : ∀ (running : Bool) (rounds : List Round) (returned : Int × Bool × List Round),
    runMainLoop running rounds = some returned → returned.1 = 0
  | false, _, _, ran => by
    simp only [runMainLoop, Option.some.injEq] at ran
    rw [← ran]
  | true, [], _, ran => by cases ran
  | true, r :: rest, returned, ran => by
    simp only [runMainLoop] at ran
    split at ran
    · exact runMainLoop_zero _ rest returned ran
    · cases ran; rfl

/-- Every step of `main`'s start-up that it checks succeeds: whatever `pthread_sigmask`
returns, its test lets the start-up go on. -/
def StartsUp (env : MainEnv) : Prop :=
  env.loggingInit ∧ env.configLoad ∧ env.configValidate ∧ 0 ≤ env.signalfd ∧
    env.threadPoolCreate ∧ env.pluginManagerCreate ∧
    (∀ j < env.pluginCount.toNat, env.pluginLoad j) ∧ env.setDefaultAlgorithm

instance (env : MainEnv) : Decidable (StartsUp env) := inferInstanceAs (Decidable (_ ∧ _))

theorem loadConfiguration_ok (env : MainEnv) :
    (loadConfiguration env).1 = 0 ↔ env.configLoad ∧ env.configValidate := by
  unfold loadConfiguration
  split_ifs <;> simp_all

/-- `pthread_sigmask` never returns -1, so `setup_signal_handling` always goes on to
`signalfd`. -/
theorem setupSignalHandling_eq (env : MainEnv) : setupSignalHandling env =
    (if env.signalfd = -1 then -1 else env.signalfd, [.pthreadSigmask, .signalfd]) := by
  have never : env.sigmask ≠ -1 := by have := env.sigmaskNonneg; omega
  unfold setupSignalHandling
  rw [if_neg never]
  split_ifs <;> rfl

theorem setupSignalHandling_ok (env : MainEnv) :
    0 ≤ (setupSignalHandling env).1 ↔ 0 ≤ env.signalfd := by
  rw [setupSignalHandling_eq]
  split_ifs with failed
  · simp [failed]
  · rfl

theorem loadBackendPlugins_ok (env : MainEnv) :
    (loadBackendPlugins env).1 = 0 ↔ env.pluginManagerCreate ∧
      (∀ j < env.pluginCount.toNat, env.pluginLoad j) ∧ env.setDefaultAlgorithm := by
  have loads := loadPlugins_ok env env.pluginCount.toNat 0
  simp only [Nat.zero_add] at loads
  rw [← loads]
  simp only [loadBackendPlugins]
  generalize loadPlugins env 0 env.pluginCount.toNat = loaded
  cases env.pluginManagerCreate <;> cases loaded.1 <;> cases env.setDefaultAlgorithm <;> simp

/-- Start-up succeeds exactly when each of its five steps does. -/
theorem startsUp_iff (env : MainEnv) : StartsUp env ↔
    (initializeLogging env).1 = 0 ∧ (loadConfiguration env).1 = 0 ∧
      0 ≤ (setupSignalHandling env).1 ∧ (initializeThreadPool env).1 = 0 ∧
      (loadBackendPlugins env).1 = 0 := by
  rw [loadConfiguration_ok, setupSignalHandling_ok, loadBackendPlugins_ok]
  simp [StartsUp, initializeLogging, initializeThreadPool, and_assoc]

/-- How `main` ends: with `EXIT_FAILURE` when a step of its start-up fails, else as its
event loop does. -/
theorem main_cases (env : MainEnv) :
    (¬StartsUp env ∧ ∃ calls, main env = some (EXIT_FAILURE, calls)) ∨
    (StartsUp env ∧ ∃ calls, main env = (runMainLoop true env.rounds).map fun loop =>
      (if loop.1 ≠ 0 then EXIT_FAILURE else EXIT_SUCCESS, calls)) := by
  rw [startsUp_iff]
  unfold main
  by_cases logging : (initializeLogging env).1 = 0
  swap
  · exact .inl ⟨fun up => logging up.1, by simp [logging]⟩
  by_cases config : (loadConfiguration env).1 = 0
  swap
  · exact .inl ⟨fun up => config up.2.1, by simp [logging, config]⟩
  by_cases signals : 0 ≤ (setupSignalHandling env).1
  swap
  · exact .inl ⟨fun up => signals up.2.2.1, by simp [logging, config, Int.not_le.mp signals]⟩
  by_cases pool : (initializeThreadPool env).1 = 0
  swap
  · exact .inl ⟨fun up => pool up.2.2.2.1, by simp [logging, config, Int.not_lt.mpr signals, pool]⟩
  by_cases plugins : (loadBackendPlugins env).1 = 0
  swap
  · exact .inl ⟨fun up => plugins up.2.2.2.2,
      by simp [logging, config, Int.not_lt.mpr signals, pool, plugins]⟩
  refine .inr ⟨⟨logging, config, signals, pool, plugins⟩, ?_⟩
  simp only [logging, config, Int.not_lt.mpr signals, pool, plugins, ne_eq, not_true_eq_false,
    if_false]
  exact ⟨_, rfl⟩

end UltraBalancer.Main
