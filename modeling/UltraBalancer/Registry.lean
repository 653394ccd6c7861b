import UltraBalancer.Lifecycle

/-!
`lb_core_add_backend` called one call after another. A run of calls keeps the registry
equal to the list of the records the successful calls created, in call order, whatever
the arguments and the allocator's answers; a failed call changes nothing.
-/

namespace UltraBalancer.Registry
open LbStatus BackendState Lifecycle

/-- The record `lb_core_add_backend` writes into the zeroed block `calloc` returned. -/
def newBackend (host : CString) (port : UInt16) (weight : UInt32) : Backend where
  host := strncpy (List.replicate HOST_SIZE 0) host (HOST_SIZE - 1)
  port := port
  weight := if weight = 0 then 1 else weight
  state := BACKEND_DOWN
  activeConns := 0
  sockfd := -1

/-- What a call returns, the core after it, and what it acquired. -/
structure AddResult where
  status : LbStatus
  core : LbCore
  effects : List Effect

/-- `lb_core_add_backend(lb, host, port, weight)`; `host = none` is a NULL pointer and
`calloc` the allocator's answer. The check `!lb` is on the core pointer and is left out.
Taking and releasing `backends_lock` around the store leaves the lock as it was. -/
def lbCoreAddBackend (lb : LbCore) (host : Option CString) (port : UInt16) (weight : UInt32)
    (calloc : Bool) : AddResult :=
  match host with
  | none => ⟨LB_ERR_INVAL, lb, []⟩
  | some host =>
    if port = 0 then ⟨LB_ERR_INVAL, lb, []⟩
    else if MAX_BACKENDS ≤ lb.backendCount then ⟨LB_ERR_LIMIT, lb, []⟩
    else if !calloc then ⟨LB_ERR_NOMEM, lb, []⟩
    else
      ⟨LB_OK, { lb.store lb.backendCount (newBackend host port weight) with
          backendCount := lb.backendCount + 1 },
        [.acquire (.backendRecord lb.backendCount), .acquire (.backendLock lb.backendCount)]⟩

/-- The arguments of one call and the allocator's answer to its `calloc`. -/
structure AddCall where
  host : Option CString
  port : UInt16
  weight : UInt32
  calloc : Bool

/-- The call made on `lb`. -/
def AddCall.apply (call : AddCall) (lb : LbCore) : AddResult :=
  lbCoreAddBackend lb call.host call.port call.weight call.calloc

/-- The record a call creates when it succeeds. -/
def AddCall.created (call : AddCall) : Option Backend :=
  call.host.map (newBackend · call.port call.weight)

/-- The results of calls made one after another. -/
def runAdds (lb : LbCore) : List AddCall → List AddResult
  | [] => []
  | call :: calls => call.apply lb :: runAdds (call.apply lb).core calls

/-- The core after calls made one after another. -/
def afterAdds (lb : LbCore) (calls : List AddCall) : LbCore :=
  calls.foldl (fun lb call => (call.apply lb).core) lb

/-- The records created by the calls that returned `LB_OK`, in call order. -/
def okBackends (calls : List AddCall) (results : List AddResult) : List Backend :=
  (calls.zip results).filterMap fun p => if p.2.status = LB_OK then p.1.created else none

/-- The registry of a core: the slots `backends[0..backend_count)`. -/
def registry (lb : LbCore) : List (Option Backend) :=
  (List.range lb.backendCount).map lb.backends

/-- Three calls: a valid one, one with port 0, and one whose `calloc` fails. -/
def sampleCalls : List AddCall :=
  [⟨some ⟨[49, 48, 46, 48, 46, 48, 46, 49], by decide⟩, 80, 0, true⟩,
    ⟨some ⟨[], by decide⟩, 0, 1, true⟩, ⟨some ⟨[], by decide⟩, 81, 1, false⟩]

/-- `lb` holds exactly the records `bs`: `backend_count` is their number, slot `i` holds
the `i`-th, and every later slot is NULL. -/
def Holds (lb : LbCore) (bs : List Backend) : Prop :=
  lb.backendCount = bs.length ∧ ∀ i, lb.backends i = bs[i]?

/-- Everything one call can do: fail and leave the core as it was, or find valid
arguments, room and memory, and append its record. -/
theorem lbCoreAddBackend_cases (lb : LbCore) (call : AddCall) :
    ((call.apply lb).status ≠ LB_OK ∧ (call.apply lb).core = lb ∧ (call.apply lb).effects = []) ∨
    (∃ b, call.created = some b ∧ call.port ≠ 0 ∧ lb.backendCount < MAX_BACKENDS ∧
      (call.apply lb).status = LB_OK ∧
      (call.apply lb).core = { lb.store lb.backendCount b with backendCount := lb.backendCount + 1 } ∧
      (call.apply lb).effects =
        [.acquire (.backendRecord lb.backendCount), .acquire (.backendLock lb.backendCount)]) := by
  obtain ⟨host, port, weight, calloc⟩ := call
  simp only [AddCall.apply, AddCall.created]
  cases host with
  | none => simp [lbCoreAddBackend]
  | some host =>
    simp only [lbCoreAddBackend]
    split_ifs with invalid full nomem
    · simp
    · simp
    · simp
    · right
      simp only [Bool.not_eq_true', Bool.not_eq_false] at nomem
      exact ⟨_, rfl, invalid, by omega, rfl, rfl, rfl⟩

/-- With valid arguments, `LB_ERR_LIMIT` is returned exactly on a full array. -/
theorem lbCoreAddBackend_limit (lb : LbCore) (call : AddCall) (hostGiven : call.host.isSome)
    (portGiven : call.port ≠ 0) :
    (call.apply lb).status = LB_ERR_LIMIT ↔ MAX_BACKENDS ≤ lb.backendCount := by
  obtain ⟨host, port, weight, calloc⟩ := call
  obtain ⟨host, rfl⟩ := Option.isSome_iff_exists.mp hostGiven
  simp only [AddCall.apply, lbCoreAddBackend, if_neg portGiven]
  split_ifs with full nomem <;> simp_all

theorem holds_apply {lb : LbCore} {bs : List Backend} (holds : Holds lb bs) (call : AddCall) :
    Holds (call.apply lb).core
      (bs ++ if (call.apply lb).status = LB_OK then call.created.toList else []) := by
  obtain ⟨count, slots⟩ := holds
  rcases lbCoreAddBackend_cases lb call with ⟨fail, same, -⟩ | ⟨b, created, -, -, ok, core, -⟩
  · simpa [fail, same] using And.intro count slots
  · rw [core, if_pos ok, created]
    refine ⟨by simp [count], fun i => ?_⟩
    show Function.update lb.backends lb.backendCount (some b) i = _
    rcases Nat.lt_trichotomy i bs.length with below | rfl | above
    · rw [Function.update_noteq (by omega), slots, List.getElem?_append_left below]
    · rw [← count, Function.update_same, List.getElem?_append_right (by omega)]
      simp [count]
    · rw [Function.update_noteq (by omega), slots, List.getElem?_eq_none (by omega),
        List.getElem?_eq_none (by simp; omega)]

theorem okBackends_cons (call : AddCall) (calls : List AddCall) (result : AddResult)
    (results : List AddResult) :
    okBackends (call :: calls) (result :: results) =
      (if result.status = LB_OK then call.created.toList else []) ++ okBackends calls results := by
  simp only [okBackends, List.zip_cons_cons, List.filterMap_cons]
  split_ifs <;> cases call.created <;> rfl

theorem holds_afterAdds {lb : LbCore} {bs : List Backend} (holds : Holds lb bs)
    (calls : List AddCall) :
    Holds (afterAdds lb calls) (bs ++ okBackends calls (runAdds lb calls)) := by
  induction calls generalizing lb bs with
  | nil => simpa [afterAdds, okBackends] using holds
  | cons call calls ih =>
    simpa only [afterAdds, List.foldl_cons, runAdds, okBackends_cons, List.append_assoc]
      using ih (holds_apply holds call)

theorem afterAdds_bounded {lb : LbCore} (bounded : lb.backendCount ≤ MAX_BACKENDS)
    (calls : List AddCall) : (afterAdds lb calls).backendCount ≤ MAX_BACKENDS := by
  induction calls generalizing lb with
  | nil => exact bounded
  | cons call calls ih =>
    apply ih
    show (call.apply lb).core.backendCount ≤ MAX_BACKENDS
    rcases lbCoreAddBackend_cases lb call with ⟨-, same, -⟩ | ⟨b, -, -, room, -, core, -⟩
    · rwa [same]
    · rw [core]
      exact room

theorem okBackends_length (lb : LbCore) (calls : List AddCall) :
    (okBackends calls (runAdds lb calls)).length =
      (runAdds lb calls).countP (·.status == LB_OK) := by
  induction calls generalizing lb with
  | nil => rfl
  | cons call calls ih =>
    simp only [runAdds, okBackends_cons, List.length_append, ih, List.countP_cons]
    rcases lbCoreAddBackend_cases lb call with ⟨fail, -, -⟩ | ⟨b, created, -, -, ok, -, -⟩
    · simp [fail]
    · simp [ok, created]
      omega

theorem registry_of_holds {lb : LbCore} {bs : List Backend} (holds : Holds lb bs) :
    registry lb = bs.map some := by
  apply List.ext_getElem
  · simp [registry, holds.1]
  · intro i inRange _
    simp only [registry, List.getElem_map, List.getElem_range, holds.2]
    simp_all [registry]

theorem holds_created {lb : LbCore} (empty : lb.backendCount = 0) (slots : ∀ i, lb.backends i = none) :
    Holds lb [] :=
  ⟨empty, fun i => by simp [slots]⟩

/-- The law of a run of adds from `lb₀`: the registry is the successful calls' records in
call order, counted by `backend_count` and never past `MAX_BACKENDS`; a failed call changes
neither the count nor a slot; valid arguments meet `LB_ERR_LIMIT` exactly on a full array. -/
structure RegistryLaw (lb₀ : LbCore) (calls : List AddCall) : Prop where
  inCallOrder : registry (afterAdds lb₀ calls) = (okBackends calls (runAdds lb₀ calls)).map some
  countsSuccesses :
    (afterAdds lb₀ calls).backendCount = (runAdds lb₀ calls).countP (·.status == LB_OK)
  bounded : (afterAdds lb₀ calls).backendCount ≤ MAX_BACKENDS
  failedCallUnchanged : ∀ pre call post, calls = pre ++ call :: post →
    (call.apply (afterAdds lb₀ pre)).status ≠ LB_OK →
      (call.apply (afterAdds lb₀ pre)).core.backendCount = (afterAdds lb₀ pre).backendCount ∧
      (call.apply (afterAdds lb₀ pre)).core.backends = (afterAdds lb₀ pre).backends
  limitExactlyWhenFull : ∀ pre call post, calls = pre ++ call :: post →
    call.host.isSome → call.port ≠ 0 →
      ((call.apply (afterAdds lb₀ pre)).status = LB_ERR_LIMIT ↔
        (afterAdds lb₀ pre).backendCount = MAX_BACKENDS)

theorem add_sequence_registry (port : UInt16) (algo : LbAlgorithm) (env : CreateEnv)
    (lb₀ : LbCore) (created : (lbCoreCreate port algo env).core = some lb₀)
    (calls : List AddCall) : RegistryLaw lb₀ calls := by
  obtain ⟨-, empty, slots, -⟩ := lbCoreCreateWith_core _ _ _ _ _ created
  have run := holds_afterAdds (holds_created empty slots) calls
  rw [List.nil_append] at run
  refine ⟨registry_of_holds run, by rw [run.1, okBackends_length],
    afterAdds_bounded (by omega) calls, fun pre call _ _ fail => ?_,
    fun pre call _ _ hostGiven portGiven => ?_⟩
  · rcases lbCoreAddBackend_cases (afterAdds lb₀ pre) call with ⟨-, same, -⟩ | ⟨-, -, -, -, ok, -⟩
    · rw [same]
      exact ⟨rfl, rfl⟩
    · exact absurd ok fail
  · have bounded : (afterAdds lb₀ pre).backendCount ≤ MAX_BACKENDS :=
      afterAdds_bounded (by omega) pre
    rw [lbCoreAddBackend_limit _ _ hostGiven portGiven]
    omega

theorem add_sequence_registry_sample :
    (lbCoreCreate 8080 .LB_ALGO_ROUNDROBIN sampleEnv).core = some sampleCore ∧
      RegistryLaw sampleCore sampleCalls :=
  ⟨rfl, add_sequence_registry 8080 .LB_ALGO_ROUNDROBIN sampleEnv sampleCore rfl sampleCalls⟩

/-- What a backend added with `host` holds: a full `host` buffer ending in NUL whose string
is the prefix of `host` that fits, a port in `1..65535`, a weight of at least one, and the
initial state, counter and socket. -/
structure AddedWith (b : Backend) (host : CString) : Prop where
  hostSize : b.host.length = HOST_SIZE
  nulTerminated : b.host.getLast? = some 0
  hostPrefix : cString b.host = host.bytes.take (HOST_SIZE - 1)
  hostBound : (cString b.host).length ≤ HOST_SIZE - 1
  portRange : 1 ≤ b.port.toNat ∧ b.port.toNat ≤ 65535
  weightPositive : 1 ≤ b.weight.toNat
  initial : b.state = BACKEND_DOWN ∧ b.activeConns = 0 ∧ b.sockfd = -1

theorem newBackend_addedWith (host : CString) (port : UInt16) (weight : UInt32)
    (portGiven : port ≠ 0) : AddedWith (newBackend host port weight) host where
  hostSize := strncpy_zeroed_length _ _ _ (by decide)
  nulTerminated := strncpy_zeroed_getLast _ _ _ (by decide)
  hostPrefix := cString_strncpy_zeroed _ _ _
  hostBound := by
    rw [newBackend, cString_strncpy_zeroed]
    exact List.length_take_le _ _
  portRange := by
    have positive : port.toNat ≠ 0 := fun zero => portGiven (UInt16.toNat.inj zero)
    have bounded : port.toNat < 65536 := port.toNat_lt_size
    exact ⟨by show 1 ≤ port.toNat; omega, by show port.toNat ≤ 65535; omega⟩
  weightPositive := by
    show 1 ≤ (if weight = 0 then 1 else weight).toNat
    split_ifs with zero
    · decide
    · have positive : weight.toNat ≠ 0 := fun eq => zero (UInt32.toNat.inj eq)
      omega
  initial := ⟨rfl, rfl, rfl⟩

theorem mem_okBackends (lb : LbCore) (calls : List AddCall) (b : Backend)
    (mem : b ∈ okBackends calls (runAdds lb calls)) :
    ∃ call ∈ calls, ∃ host, call.host = some host ∧ b = newBackend host call.port call.weight ∧
      call.port ≠ 0 := by
  induction calls generalizing lb with
  | nil => simp [okBackends] at mem
  | cons call calls ih =>
    rw [runAdds, okBackends_cons, List.mem_append] at mem
    rcases mem with here | later
    · rcases lbCoreAddBackend_cases lb call with ⟨fail, -, -⟩ | ⟨b', created, portGiven, -, ok, -⟩
      · simp [fail] at here
      · simp only [ok, if_true, created, Option.toList_some, List.mem_singleton] at here
        obtain ⟨host, given, rfl⟩ := Option.map_eq_some'.mp created
        exact ⟨call, List.mem_cons_self _ _, host, given, here, portGiven⟩
    · obtain ⟨call', mem', rest⟩ := ih _ later
      exact ⟨call', List.mem_cons_of_mem _ mem', rest⟩

/-- Every backend in `backends[0..backend_count)` of a core reached by adds was stored by
a call with a non-NULL host, and holds what `AddedWith` says against that host. -/
theorem added_backends_well_formed (port : UInt16) (algo : LbAlgorithm) (env : CreateEnv)
    (lb₀ : LbCore) (created : (lbCoreCreate port algo env).core = some lb₀)
    (calls : List AddCall) (i : Nat) (inRegistry : i < (afterAdds lb₀ calls).backendCount) :
    ∃ call ∈ calls, ∃ host b, call.host = some host ∧
      (afterAdds lb₀ calls).backends i = some b ∧ b = newBackend host call.port call.weight ∧
      AddedWith b host := by
  obtain ⟨-, empty, slots, -⟩ := lbCoreCreateWith_core _ _ _ _ _ created
  have run := holds_afterAdds (holds_created empty slots) calls
  rw [List.nil_append] at run
  have inList : i < (okBackends calls (runAdds lb₀ calls)).length := run.1 ▸ inRegistry
  obtain ⟨call, mem, host, given, stored, portGiven⟩ :=
    mem_okBackends lb₀ calls _ (List.getElem_mem inList)
  refine ⟨call, mem, host, _, given, by rw [run.2, List.getElem?_eq_getElem inList], stored, ?_⟩
  rw [stored]
  exact newBackend_addedWith host call.port call.weight portGiven

theorem added_backends_well_formed_sample :
    (lbCoreCreate 8080 .LB_ALGO_ROUNDROBIN sampleEnv).core = some sampleCore ∧
    0 < (afterAdds sampleCore sampleCalls).backendCount ∧
    ∃ call ∈ sampleCalls, ∃ host b, call.host = some host ∧
      (afterAdds sampleCore sampleCalls).backends 0 = some b ∧
      b = newBackend host call.port call.weight ∧ AddedWith b host :=
  ⟨rfl, by decide, added_backends_well_formed 8080 .LB_ALGO_ROUNDROBIN sampleEnv sampleCore rfl
    sampleCalls 0 (by decide)⟩

/-- An empty, non-NULL host is accepted, and the stored backend's host is empty. -/
theorem empty_host_added :
    ∃ b, (afterAdds sampleCore [⟨some ⟨[], by decide⟩, 80, 1, true⟩]).backends 0 = some b ∧
      cString b.host = [] ∧
      (afterAdds sampleCore [⟨some ⟨[], by decide⟩, 80, 1, true⟩]).backendCount = 1 :=
  ⟨_, rfl, by decide, rfl⟩

end UltraBalancer.Registry
