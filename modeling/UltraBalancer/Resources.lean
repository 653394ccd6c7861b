import UltraBalancer.Registry

/-!
What the core acquires and releases over its life: `lb_core_create`, any run of
`lb_core_add_backend` on the core it returns, and `lb_core_destroy`. A resource must be
acquired and then released once, or never touched. Every path does this but one: were the
bound strategy's `init` to fail after the arena was mapped, the unwinding would close the epoll
descriptor, destroy the lock and free the core, and never unmap the arena. `lb_strategy_from_algo`
binds only strategies whose `init` returns `LB_OK`, so that path is never taken.
-/

namespace UltraBalancer.Resources
open LbStatus Lifecycle Registry

/-- The effects of `log` on resource `r`, in order. -/
def effectsOn (r : Resource) (log : List Effect) : List Effect :=
  log.filter fun e => e.resource = r

/-- `log` acquires `r` and then releases it once, or never touches it. -/
def BalancedOn (log : List Effect) (r : Resource) : Prop :=
  effectsOn r log = [] ∨ effectsOn r log = [.acquire r, .release r]

instance (log : List Effect) (r : Resource) : Decidable (BalancedOn log r) :=
  inferInstanceAs (Decidable (_ ∨ _))

/-- Every resource is balanced. -/
def Balanced (log : List Effect) : Prop := ∀ r, BalancedOn log r

/-- The effects of a core's life: `lb_core_create`, then, when it returned a core, the calls
on it and `lb_core_destroy`. -/
def lifetimeEffects (strategyOf : LbAlgorithm → LbStrategy) (port : UInt16) (algo : LbAlgorithm)
    (env : CreateEnv) (calls : List AddCall) : List Effect :=
  match (lbCoreCreateWith strategyOf port algo env).core with
  | none => (lbCoreCreateWith strategyOf port algo env).effects
  | some lb => (lbCoreCreateWith strategyOf port algo env).effects ++
      (runAdds lb calls).flatMap AddResult.effects ++ lbCoreDestroy (afterAdds lb calls)

@[simp] theorem effectsOn_nil (r : Resource) : effectsOn r [] = [] := rfl

@[simp] theorem effectsOn_cons (r : Resource) (e : Effect) (log : List Effect) :
    effectsOn r (e :: log) = if e.resource = r then e :: effectsOn r log else effectsOn r log := by
  by_cases same : e.resource = r <;> simp [effectsOn, List.filter_cons, same]

@[simp] theorem effectsOn_append (r : Resource) (a b : List Effect) :
    effectsOn r (a ++ b) = effectsOn r a ++ effectsOn r b :=
  List.filter_append a b

@[simp] theorem effectsOn_flatMap (r : Resource) (l : List Nat) (g : Nat → List Effect) :
    effectsOn r (l.flatMap g) = l.flatMap fun i => effectsOn r (g i) :=
  List.filter_flatMap l g _

@[simp] theorem flatMap_empty (l : List Nat) : l.flatMap (fun _ => ([] : List Effect)) = [] :=
  List.flatMap_eq_nil_iff.mpr fun _ _ => rfl

@[simp] theorem acquire_resource (r : Resource) : (Effect.acquire r).resource = r := rfl

@[simp] theorem release_resource (r : Resource) : (Effect.release r).resource = r := rfl

@[simp] theorem effectsOn_ite (r : Resource) (c : Prop) [Decidable c] (a b : List Effect) :
    effectsOn r (if c then a else b) = if c then effectsOn r a else effectsOn r b :=
  apply_ite _ c a b

/-- Slot `k`'s share of a pass over slots `s, ..., s + n - 1`. -/
theorem flatMap_range'_single (k : Nat) (e : Nat → Effect) (n : Nat) : ∀ s,
    (List.range' s n).flatMap (fun i => if i = k then [e i] else []) =
      if s ≤ k ∧ k < s + n then [e k] else [] := by
  induction n with
  | zero => intro s; simp
  | succ n ih =>
    intro s
    rw [List.range'_succ, List.flatMap_cons, ih]
    by_cases here : s = k
    · subst here
      simp
    · by_cases inside : s ≤ k ∧ k < s + (n + 1)
      · rw [if_neg here, if_pos (by omega), if_pos inside]; rfl
      · rw [if_neg here, if_neg (by omega), if_neg inside]; rfl

/-- The successful calls of a run acquire the records and locks of the slots they fill, in
slot order. -/
theorem runAdds_effects (calls : List AddCall) : ∀ lb : LbCore, ∃ m,
    (afterAdds lb calls).backendCount = lb.backendCount + m ∧
    (runAdds lb calls).flatMap AddResult.effects =
      (List.range' lb.backendCount m).flatMap
        fun k => [.acquire (.backendRecord k), .acquire (.backendLock k)] := by
  induction calls with
  | nil => intro lb; exact ⟨0, rfl, rfl⟩
  | cons call calls ih =>
    intro lb
    obtain ⟨m, grown, effects⟩ := ih (call.apply lb).core
    rw [show afterAdds lb (call :: calls) = afterAdds (call.apply lb).core calls from rfl, runAdds,
      List.flatMap_cons, effects]
    rcases lbCoreAddBackend_cases lb call with ⟨-, same, none⟩ | ⟨b, -, -, -, -, core, added⟩
    · rw [same] at grown ⊢
      exact ⟨m, grown, by rw [none]; rfl⟩
    · rw [core] at grown ⊢
      refine ⟨m + 1, by rw [grown]; dsimp only; omega, ?_⟩
      rw [added, List.range'_succ]
      rfl

/-- Calls leave the descriptor, the arena and the pool as they were. -/
theorem afterAdds_frame (calls : List AddCall) : ∀ lb : LbCore,
    (afterAdds lb calls).epfd = lb.epfd ∧ (afterAdds lb calls).mem = lb.mem ∧
      (afterAdds lb calls).tpool = lb.tpool := by
  induction calls with
  | nil => intro lb; exact ⟨rfl, rfl, rfl⟩
  | cons call calls ih =>
    intro lb
    have kept : (call.apply lb).core.epfd = lb.epfd ∧ (call.apply lb).core.mem = lb.mem ∧
        (call.apply lb).core.tpool = lb.tpool := by
      rcases lbCoreAddBackend_cases lb call with ⟨-, same, -⟩ | ⟨b, -, -, -, -, core, -⟩
      · rw [same]; exact ⟨rfl, rfl, rfl⟩
      · rw [core]; exact ⟨rfl, rfl, rfl⟩
    obtain ⟨epfd, mem, tpool⟩ := ih (call.apply lb).core
    exact ⟨epfd.trans kept.1, mem.trans kept.2.1, tpool.trans kept.2.2⟩

theorem lbThreadPoolStart_effects (n : Nat) (calloc : Bool) :
    (lbThreadPoolStart POOL_STOPPED n calloc).2.2 =
      if (lbThreadPoolStart POOL_STOPPED n calloc).2.1.threads then [.acquire .workerIds] else [] := by
  by_cases idle : n = 0 <;> cases calloc <;> simp [lbThreadPoolStart, POOL_STOPPED, idle]

/-- `lb_core_destroy` on a registry with no NULL slot releases every slot's lock and record. -/
theorem destroy_slots (lb : LbCore) (filled : ∀ i < lb.backendCount, (lb.backends i).isSome) :
    (List.range lb.backendCount).flatMap (fun i => if (lb.backends i).isSome then
        [Effect.release (.backendLock i), Effect.release (.backendRecord i)] else []) =
      (List.range' 0 lb.backendCount).flatMap
        fun i => [Effect.release (.backendLock i), Effect.release (.backendRecord i)] := by
  rw [List.range_eq_range']
  exact List.flatMap_congr fun i mem =>
    if_pos (filled i (by have := (List.mem_range'_1.mp mem).2; omega))

/-- Acquiring `r` exactly when `held`, then releasing it exactly when `held`, leaves `r`
balanced. -/
theorem balancedOn_append {acquired released : List Effect} {r : Resource} (held : Bool)
    (acquires : effectsOn r acquired = if held then [.acquire r] else [])
    (releases : effectsOn r released = if held then [.release r] else []) :
    BalancedOn (acquired ++ released) r := by
  cases held <;> simp [BalancedOn, acquires, releases]

/-- The life of a created core: what creation acquired, any calls, and `lb_core_destroy`. -/
theorem created_balanced (strategy : LbStrategy) (port : UInt16) (algo : LbAlgorithm)
    (env : CreateEnv) (pool : LbStatus × LbThreadPool × List Effect)
    (poolEffects : pool.2.2 = if pool.2.1.threads then [.acquire .workerIds] else [])
    (polled : 0 ≤ env.epollFd) (calls : List AddCall) (r : Resource) :
    BalancedOn ([.acquire .core, .acquire .epollFd, .acquire .backendsLock] ++
      (if env.mmapOk then [.acquire .arena] else []) ++ pool.2.2 ++
      (runAdds (createdCore strategy port algo env pool.2.1) calls).flatMap AddResult.effects ++
      lbCoreDestroy (afterAdds (createdCore strategy port algo env pool.2.1) calls)) r := by
  have start : Holds (createdCore strategy port algo env pool.2.1) [] :=
    holds_created rfl fun _ => rfl
  have run := holds_afterAdds start calls
  obtain ⟨m, grown, adds⟩ := runAdds_effects calls (createdCore strategy port algo env pool.2.1)
  obtain ⟨epfd, mem, tpool⟩ := afterAdds_frame calls (createdCore strategy port algo env pool.2.1)
  have filled : ∀ i < (afterAdds (createdCore strategy port algo env pool.2.1) calls).backendCount,
      ((afterAdds (createdCore strategy port algo env pool.2.1) calls).backends i).isSome :=
    fun i below => by rw [run.2, List.getElem?_eq_getElem (by rw [← run.1]; exact below)]; rfl
  rw [lbCoreDestroy, destroy_slots _ filled, adds, poolEffects, epfd, mem, tpool, grown]
  simp only [createdCore, lbThreadPoolStop, Nat.zero_add]
  -- what the core holds between creation and `lb_core_destroy`
  refine balancedOn_append (match r with
    | .arena => env.mmapOk
    | .workerIds => pool.2.1.threads
    | .backendRecord k | .backendLock k => decide (k < m)
    | _ => true) ?_ ?_ <;>
  cases r <;> simp [flatMap_range'_single, polled]

/-- Every resource of a core's life is balanced, except the arena when `init` fails after
the mapping succeeded. -/
theorem lifetimeEffects_balancedOn (strategyOf : LbAlgorithm → LbStrategy) (port : UInt16)
    (algo : LbAlgorithm) (env : CreateEnv) (calls : List AddCall) (r : Resource)
    (spared : r ≠ .arena ∨ (strategyOf algo).init.getD LB_OK = LB_OK ∨ env.mmapOk = false) :
    BalancedOn (lifetimeEffects strategyOf port algo env calls) r := by
  unfold lifetimeEffects lbCoreCreateWith
  by_cases alloc : env.coreCalloc = false
  · simp [alloc, BalancedOn]
  by_cases fd : env.epollFd < 0
  · cases r <;> simp [alloc, fd, BalancedOn]
  simp only [Bool.not_eq_false] at alloc
  simp only [alloc, fd, Bool.not_true, Bool.false_eq_true, if_false, ne_eq, ite_not]
  by_cases init : (strategyOf algo).init.getD LB_OK = LB_OK
  · simp only [init, if_true]
    exact created_balanced _ _ _ _ _ (lbThreadPoolStart_effects _ _) (Int.not_lt.mp fd) calls r
  · have unmapped : r = .arena → env.mmapOk = false := fun arena => by
      rcases spared with other | ok | unmapped
      · exact absurd arena other
      · exact absurd ok init
      · exact unmapped
    simp only [init, if_false]
    cases r <;> simp_all [BalancedOn]

/-- With the source's factory, every strategy's `init` succeeds, and every resource of every
core's life is balanced. -/
theorem lbCoreCreate_lifetime_balanced (port : UInt16) (algo : LbAlgorithm) (env : CreateEnv)
    (calls : List AddCall) : Balanced (lifetimeEffects lbStrategyFromAlgo port algo env calls) :=
  fun r => lifetimeEffects_balancedOn _ _ _ _ _ r
    (.inr (.inl (by rw [lbStrategyFromAlgo_init]; rfl)))

end UltraBalancer.Resources
