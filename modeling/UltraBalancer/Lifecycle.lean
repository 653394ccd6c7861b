import UltraBalancer.Types

/-!
Creation and destruction of the core: `lb_core_create`, `lb_core_destroy`, the worker pool
and the strategy factory. The calls to the system and the allocator are inputs
(`CreateEnv`); what a function acquires and releases is its list of `Effect`s.
-/

namespace UltraBalancer.Lifecycle
open LbStatus

/-- `lb_thread_pool_start(tp, nthreads)`, with `calloc` the allocator's answer. The pointer
check `!tp` is left out: the core passes `&lb->tpool`. -/
def lbThreadPoolStart (tp : LbThreadPool) (nthreads : Nat) (calloc : Bool) :
    LbStatus × LbThreadPool × List Effect :=
  if nthreads = 0 then (LB_ERR_INVAL, tp, [])
  else if !calloc then (LB_ERR_NOMEM, { tp with threads := false }, [])
  else (LB_OK, { threads := true, nthreads := nthreads, running := true }, [.acquire .workerIds])

/-- `lb_thread_pool_stop(tp)`; `free` of a NULL array releases nothing. -/
def lbThreadPoolStop (tp : LbThreadPool) : LbThreadPool × List Effect :=
  ({ threads := false, nthreads := 0, running := false },
    if tp.threads then [.release .workerIds] else [])

/-- The pool of a zeroed core. -/
def POOL_STOPPED : LbThreadPool := { threads := false, nthreads := 0, running := false }

/-- `STRAT_LEASTCONN`; its `init` is `strat_leastconn_init`, which returns `LB_OK`. -/
def STRAT_LEASTCONN : LbStrategy :=
  { name := "leastconn", init := some LB_OK, select := .stratLeastconnSelect }

/-- `STRAT_RR`, which shares the least-connections `init`. -/
def STRAT_RR : LbStrategy :=
  { name := "roundrobin", init := some LB_OK, select := .stratRrSelect }

/-- `lb_strategy_from_algo`: unknown tags fall back to least-connections. -/
def lbStrategyFromAlgo : LbAlgorithm → LbStrategy
  | .LB_ALGO_LEASTCONN => STRAT_LEASTCONN
  | .LB_ALGO_ROUNDROBIN => STRAT_RR
  | .other _ => STRAT_LEASTCONN

theorem lbStrategyFromAlgo_init (algo : LbAlgorithm) :
    (lbStrategyFromAlgo algo).init = some LB_OK := by
  cases algo <;> rfl

/-- The defaults `lb_core_create` writes into `cfg`. -/
def CREATE_CFG : LbConfig where
  connectTimeoutMs := 5000
  readTimeoutMs := 30000
  writeTimeoutMs := 30000
  keepaliveTimeoutMs := 60000
  healthCheckIntervalMs := 5000
  maxConnections := 65535
  tcpNodelay := true
  soReuseport := true
  deferAccept := true

/-- The answers of the system and the allocator to the calls of `lb_core_create`. -/
structure CreateEnv where
  coreCalloc : Bool
  epollFd : Int
  mmapOk : Bool
  onlineCpus : Int
  threadsCalloc : Bool

/-- What `lb_core_create` returns: its status, the core stored to `*out`, its effects. -/
structure CreateResult where
  status : LbStatus
  core : Option LbCore
  effects : List Effect

/-- The core `lb_core_create` stores to `*out` once every step has succeeded. -/
def createdCore (strategy : LbStrategy) (port : UInt16) (algo : LbAlgorithm) (env : CreateEnv)
    (tpool : LbThreadPool) : LbCore where
  port := port
  running := false
  epfd := env.epollFd
  backendCount := 0
  backends := fun _ => none
  rrIdx := 0
  algorithm := algo
  cfg := CREATE_CFG
  mem := env.mmapOk
  memSize := if env.mmapOk then 64 * 1024 * 1024 else 0
  backendsLock := false
  strategy := strategy
  tpool := tpool

/-- `lb_core_create(port, algo, out)` with a non-NULL `out`, for a strategy factory
`strategyOf`: the source's is `lbStrategyFromAlgo`, and `init` is called through the
bound record, so any strategy plugs in here. -/
def lbCoreCreateWith (strategyOf : LbAlgorithm → LbStrategy) (port : UInt16)
    (algo : LbAlgorithm) (env : CreateEnv) : CreateResult :=
  if !env.coreCalloc then ⟨LB_ERR_NOMEM, none, []⟩
  else if env.epollFd < 0 then ⟨LB_ERR_SYS, none, [.acquire .core, .release .core]⟩
  else
    let acquired := [.acquire .core, .acquire .epollFd, .acquire .backendsLock] ++
      (if env.mmapOk then [.acquire .arena] else [])
    let strategy := strategyOf algo
    let s := strategy.init.getD LB_OK
    if s ≠ LB_OK then
      ⟨s, none, acquired ++ [.release .epollFd, .release .backendsLock, .release .core]⟩
    else
      let nthreads := if 0 < env.onlineCpus then env.onlineCpus.toNat % 4294967296 else 1
      let pool := lbThreadPoolStart POOL_STOPPED nthreads env.threadsCalloc
      ⟨LB_OK, some (createdCore strategy port algo env pool.2.1), acquired ++ pool.2.2⟩

/-- `lb_core_create` as the source binds strategies. -/
def lbCoreCreate (port : UInt16) (algo : LbAlgorithm) (env : CreateEnv) : CreateResult :=
  lbCoreCreateWith lbStrategyFromAlgo port algo env

/-- A system on which every call of `lb_core_create` succeeds, with four processors. -/
def sampleEnv : CreateEnv :=
  { coreCalloc := true, epollFd := 3, mmapOk := true, onlineCpus := 4, threadsCalloc := true }

/-- The round-robin core `lb_core_create(8080, LB_ALGO_ROUNDROBIN, out)` stores on `sampleEnv`. -/
def sampleCore : LbCore :=
  createdCore STRAT_RR 8080 .LB_ALGO_ROUNDROBIN sampleEnv
    (lbThreadPoolStart POOL_STOPPED 4 true).2.1

/-- `lb_core_destroy(lb)`: the releases it performs, in order. `teardown` releases nothing. -/
def lbCoreDestroy (lb : LbCore) : List Effect :=
  (lbThreadPoolStop lb.tpool).2 ++
    (if lb.mem then [.release .arena] else []) ++
    (if 0 ≤ lb.epfd then [.release .epollFd] else []) ++
    [.release .backendsLock] ++
    (List.range lb.backendCount).flatMap (fun i =>
      if (lb.backends i).isSome then [.release (.backendLock i), .release (.backendRecord i)]
      else []) ++
    [.release .core]

/-- A core is produced only on `LB_OK`, and a produced core is empty with its lock free. -/
theorem lbCoreCreateWith_core (strategyOf : LbAlgorithm → LbStrategy) (port : UInt16)
    (algo : LbAlgorithm) (env : CreateEnv) (lb : LbCore)
    (created : (lbCoreCreateWith strategyOf port algo env).core = some lb) :
    (lbCoreCreateWith strategyOf port algo env).status = LB_OK ∧ lb.backendCount = 0 ∧
      (∀ i, lb.backends i = none) ∧ lb.backendsLock = false ∧ 0 ≤ lb.epfd := by
  unfold lbCoreCreateWith at created ⊢
  by_cases alloc : env.coreCalloc = false
  · simp [alloc] at created
  by_cases fd : env.epollFd < 0
  · simp [alloc, fd] at created
  by_cases init : (strategyOf algo).init.getD LB_OK ≠ LB_OK
  · simp [alloc, fd, init] at created
  simp only [Bool.not_eq_false] at alloc
  simp only [alloc, fd, init, Bool.not_true, Bool.false_eq_true, if_false, ne_eq, not_false_eq_true,
    not_true_eq_false, Option.some.injEq] at created ⊢
  subst created
  exact ⟨trivial, rfl, fun _ => rfl, rfl, Int.not_lt.mp fd⟩

end UltraBalancer.Lifecycle
