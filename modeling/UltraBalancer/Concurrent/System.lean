import UltraBalancer.Registry

/-!
The core shared by threads. A call is a thread that makes one shared access per step.
`lb_core_add_backend` reads `backend_count` without the lock, allocates and fills its record,
then takes `backends_lock` and makes the two writes of `backends[backend_count++] = b` in an
order the compiler chooses. The selects take no lock: they read `backend_count`, a slot, the
cursor and a backend's `state` or `active_conns` one access at a time. Between two steps the
environment may change any backend's `state` or `active_conns`. Each thread logs what it read.
A read past the array or a modulus by zero is a fault, from which the thread never moves.
-/

namespace UltraBalancer.Concurrent
open LbStatus BackendState Registry

/-- One read of a thread. -/
inductive Obs
  | count (n : Nat)
  | slot (i : Nat) (present : Bool)
  | state (i : Nat) (st : BackendState)
  | conns (i : Nat) (c : UInt32)
  deriving DecidableEq, Repr

/-- A call a thread can make. -/
inductive Call
  | addBackend (host : Option CString) (port : UInt16) (weight : UInt32)
  | rrSelect
  | leastconnSelect

/-- Where a thread is in its call, with the locals it holds. The selects name the backend
they loaded by the slot they loaded it from. -/
inductive Pc
  | idle
  | addCheck (b : Backend)
  | addAlloc (b : Backend)
  | addLock (b : Backend)
  | addFirst (b : Backend) (c : Nat) (countFirst : Bool)
  | addSecond (b : Backend) (c : Nat) (countFirst : Bool)
  | addUnlock
  | addDone (status : LbStatus)
  | rrStart
  | rrTest (tries : Nat)
  | rrFetch (tries : Nat)
  | rrMod (tries : Nat) (v : UInt32)
  | rrSlot (tries idx : Nat)
  | rrState (tries idx : Nat)
  | lcTest (i : Nat) (sel : Option Nat) (minc : UInt32)
  | lcSlot (i : Nat) (sel : Option Nat) (minc : UInt32)
  | lcState (i : Nat) (sel : Option Nat) (minc : UInt32)
  | lcConns (i : Nat) (sel : Option Nat) (minc : UInt32)
  | selectDone (result : Option Nat)
  | fault
  deriving DecidableEq, Repr

/-- Where a call starts. The argument checks of `lb_core_add_backend` read nothing shared. -/
def Call.begin : Call → Pc
  | .addBackend none _ _ => .addDone LB_ERR_INVAL
  | .addBackend (some host) port weight =>
    if port = 0 then .addDone LB_ERR_INVAL else .addCheck (newBackend host port weight)
  | .rrSelect => .rrStart
  | .leastconnSelect => .lcTest 0 none UINT32_MAX

/-- One of the two writes of `backends[backend_count++] = b` at count `c`: the count when
`countNow`, else the slot. -/
def publish (lb : LbCore) (b : Backend) (c : Nat) (countNow : Bool) : LbCore :=
  if countNow then { lb with backendCount := c + 1 } else lb.store c b

/-- One step of a thread at `pc`: the core after it, the thread's next position and what it
read. `choice` is the allocator's answer at `addAlloc` and whether the count is written first
at `addLock`. `none` when the thread cannot move: it waits for the lock, or it is not in a
call. -/
def threadStep (lb : LbCore) (choice : Bool) : Pc → Option (LbCore × Pc × List Obs)
  | .addCheck b => some (lb,
      if MAX_BACKENDS ≤ lb.backendCount then .addDone LB_ERR_LIMIT else .addAlloc b,
      [.count lb.backendCount])
  | .addAlloc b => some (lb, if choice then .addLock b else .addDone LB_ERR_NOMEM, [])
  | .addLock b =>
    if lb.backendsLock then none
    else some ({ lb with backendsLock := true }, .addFirst b lb.backendCount choice, [])
  | .addFirst b c countFirst => some (publish lb b c countFirst, .addSecond b c countFirst, [])
  | .addSecond b c countFirst => some (publish lb b c !countFirst, .addUnlock, [])
  | .addUnlock => some ({ lb with backendsLock := false }, .addDone LB_OK, [])
  | .rrStart => some (lb,
      if lb.backendCount = 0 then .selectDone none else .rrTest 0, [.count lb.backendCount])
  | .rrTest tries => some (lb,
      if tries < lb.backendCount then .rrFetch tries else .selectDone none,
      [.count lb.backendCount])
  | .rrFetch tries => some ({ lb with rrIdx := lb.rrIdx + 1 }, .rrMod tries lb.rrIdx, [])
  | .rrMod tries v => some (lb,
      if lb.backendCount = 0 then .fault else .rrSlot tries (v.toNat % lb.backendCount),
      [.count lb.backendCount])
  | .rrSlot tries idx =>
    if MAX_BACKENDS ≤ idx then some (lb, .fault, [])
    else some (lb, if (lb.backends idx).isSome then .rrState tries idx else .rrTest (tries + 1),
      [.slot idx (lb.backends idx).isSome])
  | .rrState tries idx =>
    match lb.backends idx with
    | some b => some (lb,
        if b.state = BACKEND_UP then .selectDone (some idx) else .rrTest (tries + 1),
        [.state idx b.state])
    | none => some (lb, .fault, [])
  | .lcTest i sel minc => some (lb,
      if i < lb.backendCount then .lcSlot i sel minc else .selectDone sel,
      [.count lb.backendCount])
  | .lcSlot i sel minc =>
    if MAX_BACKENDS ≤ i then some (lb, .fault, [])
    else some (lb, if (lb.backends i).isSome then .lcState i sel minc else .lcTest (i + 1) sel minc,
      [.slot i (lb.backends i).isSome])
  | .lcState i sel minc =>
    match lb.backends i with
    | some b => some (lb,
        if b.state = BACKEND_UP then .lcConns i sel minc else .lcTest (i + 1) sel minc,
        [.state i b.state])
    | none => some (lb, .fault, [])
  | .lcConns i sel minc =>
    match lb.backends i with
    | some b => some (lb,
        if b.activeConns < minc then .lcTest (i + 1) (some i) b.activeConns
        else .lcTest (i + 1) sel minc,
        [.conns i b.activeConns])
    | none => some (lb, .fault, [])
  | _ => none

/-- Whether a thread is between the start of `lb_core_add_backend` and its return. -/
def Pc.adding : Pc → Bool
  | .addCheck _ | .addAlloc _ | .addLock _ | .addFirst .. | .addSecond .. | .addUnlock => true
  | _ => false

/-- Whether a thread is free to start a call. -/
def Pc.returned : Pc → Bool
  | .idle | .addDone _ | .selectDone _ => true
  | _ => false

/-- The shared core, each thread's position and each thread's log of the current call. -/
structure Sys where
  core : LbCore
  pcs : Nat → Pc
  logs : Nat → List Obs

/-- A step of the system: a thread starts a call or makes one step of it, or the environment
stores to a backend's `state` or `active_conns`. -/
inductive Action
  | start (t : Nat) (call : Call)
  | run (t : Nat) (choice : Bool)
  | mark (i : Nat) (st : BackendState)
  | setConns (i : Nat) (c : UInt32)

/-- The system after an action, or `none` when the action cannot happen. -/
def step (s : Sys) : Action → Option Sys
  | .start t call =>
    if (s.pcs t).returned then
      some { s with pcs := Function.update s.pcs t call.begin, logs := Function.update s.logs t [] }
    else none
  | .run t choice => (threadStep s.core choice (s.pcs t)).map fun (core, pc, obs) =>
      { core := core, pcs := Function.update s.pcs t pc,
        logs := Function.update s.logs t (s.logs t ++ obs) }
  | .mark i st => (s.core.backends i).map fun b =>
      { s with core := s.core.store i { b with state := st } }
  | .setConns i c => (s.core.backends i).map fun b =>
      { s with core := s.core.store i { b with activeConns := c } }

/-- What a step of the system does: a returned thread starts a call, a thread makes one step
of its call, or a backend present in its slot is stored back changed. -/
theorem step_cases {s s' : Sys} {a : Action} (moved : step s a = some s') :
    (∃ t call, a = .start t call ∧ (s.pcs t).returned ∧
      s' = { s with pcs := Function.update s.pcs t call.begin, logs := Function.update s.logs t [] }) ∨
    (∃ t choice core pc obs, a = .run t choice ∧
      threadStep s.core choice (s.pcs t) = some (core, pc, obs) ∧
      s' = ⟨core, Function.update s.pcs t pc, Function.update s.logs t (s.logs t ++ obs)⟩) ∨
    (∃ i b b', s.core.backends i = some b ∧ s' = { s with core := s.core.store i b' }) := by
  cases a with
  | start t call =>
    simp only [step] at moved
    split at moved
    · next returned =>
      cases moved
      exact .inl ⟨t, call, rfl, returned, rfl⟩
    · cases moved
  | run t choice =>
    simp only [step, Option.map_eq_some'] at moved
    obtain ⟨⟨core, pc, obs⟩, stepped, rfl⟩ := moved
    exact .inr (.inl ⟨t, choice, core, pc, obs, rfl, stepped, rfl⟩)
  | mark i _ | setConns i _ =>
    simp only [step, Option.map_eq_some'] at moved
    obtain ⟨b, present, rfl⟩ := moved
    exact .inr (.inr ⟨i, b, _, present, rfl⟩)

theorem step_start {s s' : Sys} {t : Nat} {call : Call} (moved : step s (.start t call) = some s') :
    (s.pcs t).returned ∧
      s' = { s with pcs := Function.update s.pcs t call.begin, logs := Function.update s.logs t [] } := by
  simp only [step] at moved
  split at moved
  · next returned => exact ⟨returned, (Option.some.inj moved).symm⟩
  · cases moved

theorem step_run {s s' : Sys} {t : Nat} {choice : Bool} (moved : step s (.run t choice) = some s') :
    ∃ core pc obs, threadStep s.core choice (s.pcs t) = some (core, pc, obs) ∧
      s' = ⟨core, Function.update s.pcs t pc, Function.update s.logs t (s.logs t ++ obs)⟩ := by
  simp only [step, Option.map_eq_some'] at moved
  obtain ⟨⟨core, pc, obs⟩, stepped, rfl⟩ := moved
  exact ⟨core, pc, obs, stepped, rfl⟩

/-- The states of a run: the first state and the state after each action, or `none` when an
action cannot happen. -/
def runTrace (s : Sys) : List Action → Option (List Sys)
  | [] => some [s]
  | a :: rest => (step s a).bind fun s' => (runTrace s' rest).map (s :: ·)

theorem runTrace_cons {s : Sys} {a : Action} {rest : List Action} {states : List Sys}
    (ran : runTrace s (a :: rest) = some states) :
    ∃ s' later, step s a = some s' ∧ runTrace s' rest = some later ∧ states = s :: later := by
  simp only [runTrace, Option.bind_eq_some, Option.map_eq_some'] at ran
  obtain ⟨s', stepped, later, ran, rfl⟩ := ran
  exact ⟨s', later, stepped, ran, rfl⟩

theorem runTrace_head {s : Sys} {acts : List Action} {states : List Sys}
    (ran : runTrace s acts = some states) : s ∈ states := by
  cases acts with
  | nil =>
    cases ran
    exact List.mem_singleton_self s
  | cons a rest =>
    obtain ⟨-, -, -, -, rfl⟩ := runTrace_cons ran
    exact List.mem_cons_self s _

/-- What every allowed step keeps holds of every state of a run whose steps are all allowed. -/
theorem runTrace_keeps {P : Sys → Prop} (allowed : Sys → Action → Prop)
    (keeps : ∀ {s s' a}, P s → allowed s a → step s a = some s' → P s') :
    ∀ {acts : List Action} {s : Sys} {states : List Sys}, P s → runTrace s acts = some states →
      (∀ p ∈ states.zip acts, allowed p.1 p.2) → ∀ s' ∈ states, P s'
  | [], s, _, holds, ran, _ => by
    cases ran
    intro s' mem
    rw [List.mem_singleton.mp mem]
    exact holds
  | a :: rest, s, _, holds, ran, all => by
    obtain ⟨s', later, stepped, ranLater, rfl⟩ := runTrace_cons ran
    have next := keeps holds (all (s, a) (List.mem_cons_self _ _)) stepped
    intro s'' mem
    rcases List.mem_cons.mp mem with rfl | later
    · exact holds
    · exact runTrace_keeps allowed keeps next ranLater (fun p mem => all p (List.mem_cons_of_mem _ mem))
        s'' later

/-- No thread has started a call on `lb`. -/
def idleOn (lb : LbCore) : Sys := ⟨lb, fun _ => .idle, fun _ => []⟩

end UltraBalancer.Concurrent
