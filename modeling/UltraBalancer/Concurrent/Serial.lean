import UltraBalancer.Concurrent.System

/-!
Selects running beside adds that do not overlap one another. The readers take no lock, but
`backend_count` only grows, a slot once non-NULL stays so, and an add that passed its check
writes a count of at most `MAX_BACKENDS`. From these, every select stays in bounds, never
divides by zero, runs its loop at most `MAX_BACKENDS` times, and returns a slot it read
non-NULL below a count it read, with a state it read as UP.
-/

namespace UltraBalancer.Concurrent
open LbStatus BackendState Lifecycle

/-- The thread read a count above `i`. -/
def CountAbove (log : List Obs) (i : Nat) : Prop := ∃ n, .count n ∈ log ∧ i < n

/-- The thread read slot `i` non-NULL below a count it read, and the slot is non-NULL. -/
def Loaded (lb : LbCore) (log : List Obs) (i : Nat) : Prop :=
  i < lb.backendCount ∧ CountAbove log i ∧ .slot i true ∈ log ∧ (lb.backends i).isSome

/-- The reads that justify returning slot `i`. -/
def Justified (log : List Obs) (i : Nat) : Prop :=
  CountAbove log i ∧ .slot i true ∈ log ∧ .state i BACKEND_UP ∈ log

/-- The slot a scan has selected so far is justified. -/
def Picked (log : List Obs) (sel : Option Nat) : Prop := ∀ j, sel = some j → Justified log j

/-- What a select in progress knows of the core and of its own reads. -/
def SelOk (lb : LbCore) (log : List Obs) : Pc → Prop
  | .rrTest tries => tries ≤ lb.backendCount
  | .rrFetch tries => tries < lb.backendCount
  | .rrMod tries _ => tries < lb.backendCount
  | .rrSlot tries idx => tries < lb.backendCount ∧ idx < lb.backendCount ∧ CountAbove log idx
  | .rrState tries idx => tries < lb.backendCount ∧ Loaded lb log idx
  | .lcTest i sel _ => i ≤ lb.backendCount ∧ Picked log sel
  | .lcSlot i sel _ => i < lb.backendCount ∧ CountAbove log i ∧ Picked log sel
  | .lcState i sel _ => Loaded lb log i ∧ Picked log sel
  | .lcConns i sel _ => Loaded lb log i ∧ .state i BACKEND_UP ∈ log ∧ Picked log sel
  | .selectDone result => Picked log result
  | .fault => False
  | _ => True

/-- What an add in progress knows of the count: below `MAX_BACKENDS` once its check passed,
and equal to what it read under the lock until it writes it. -/
def AddOk (count : Nat) : Pc → Prop
  | .addAlloc _ => count < MAX_BACKENDS
  | .addLock _ => count < MAX_BACKENDS
  | .addFirst _ c _ => c < MAX_BACKENDS ∧ count = c
  | .addSecond _ c countFirst => c < MAX_BACKENDS ∧ count = if countFirst then c + 1 else c
  | _ => True

/-- The core only grows: the count does not drop and no slot empties. -/
def Grows (lb lb' : LbCore) : Prop :=
  lb.backendCount ≤ lb'.backendCount ∧ ∀ i, (lb.backends i).isSome → (lb'.backends i).isSome

theorem CountAbove.append {log : List Obs} {i : Nat} (above : CountAbove log i) (obs : List Obs) :
    CountAbove (log ++ obs) i :=
  let ⟨n, read, below⟩ := above
  ⟨n, List.mem_append_left obs read, below⟩

theorem Justified.append {log : List Obs} {i : Nat} (justified : Justified log i)
    (obs : List Obs) : Justified (log ++ obs) i :=
  ⟨justified.1.append obs, List.mem_append_left obs justified.2.1,
    List.mem_append_left obs justified.2.2⟩

theorem Picked.append {log : List Obs} {sel : Option Nat} (picked : Picked log sel)
    (obs : List Obs) : Picked (log ++ obs) sel :=
  fun j chosen => (picked j chosen).append obs

theorem Loaded.grow {lb lb' : LbCore} {log : List Obs} {i : Nat} (grows : Grows lb lb')
    (loaded : Loaded lb log i) : Loaded lb' log i :=
  ⟨Nat.lt_of_lt_of_le loaded.1 grows.1, loaded.2.1, loaded.2.2.1, grows.2 i loaded.2.2.2⟩

theorem Loaded.append {lb : LbCore} {log : List Obs} {i : Nat} (loaded : Loaded lb log i)
    (obs : List Obs) : Loaded lb (log ++ obs) i :=
  ⟨loaded.1, loaded.2.1.append obs, List.mem_append_left obs loaded.2.2.1, loaded.2.2.2⟩

theorem SelOk.grow {lb lb' : LbCore} {log : List Obs} {pc : Pc} (grows : Grows lb lb')
    (selected : SelOk lb log pc) : SelOk lb' log pc := by
  have more := grows.1
  cases pc <;> simp only [SelOk] at selected ⊢
  case rrTest | rrFetch | rrMod => omega
  case rrSlot => exact ⟨by omega, by omega, selected.2.2⟩
  case rrState => exact ⟨by omega, selected.2.grow grows⟩
  case lcTest => exact ⟨by omega, selected.2⟩
  case lcSlot => exact ⟨by omega, selected.2⟩
  case lcState => exact ⟨selected.1.grow grows, selected.2⟩
  case lcConns => exact ⟨selected.1.grow grows, selected.2⟩
  case selectDone => exact selected

/-- The core after a step of a thread at `pc`: only the lock steps, the two writes of an add
and the cursor's fetch-and-add store. -/
def coreAfter (lb : LbCore) : Pc → LbCore
  | .addLock _ => { lb with backendsLock := true }
  | .addFirst b c countFirst => publish lb b c countFirst
  | .addSecond b c countFirst => publish lb b c !countFirst
  | .addUnlock => { lb with backendsLock := false }
  | .rrFetch _ => { lb with rrIdx := lb.rrIdx + 1 }
  | _ => lb

theorem threadStep_core {lb lb' : LbCore} {choice : Bool} {pc pc' : Pc} {obs : List Obs}
    (moved : threadStep lb choice pc = some (lb', pc', obs)) : lb' = coreAfter lb pc := by
  cases pc <;> simp only [threadStep] at moved <;> (try split at moved) <;> cases moved <;> rfl

/-- A step that is not inside an add leaves the count and the slots as they were. -/
theorem coreAfter_keeps (lb : LbCore) {pc : Pc} (notAdding : pc.adding = false) :
    (coreAfter lb pc).backendCount = lb.backendCount ∧
      (coreAfter lb pc).backends = lb.backends := by
  cases pc <;> first | exact ⟨rfl, rfl⟩ | simp [Pc.adding] at notAdding

theorem store_grows (lb : LbCore) (i : Nat) (b : Backend) : Grows lb (lb.store i b) := by
  refine ⟨le_rfl, fun j present => ?_⟩
  by_cases here : j = i
  · simp [here]
  · simpa [Function.update_noteq here] using present

theorem publish_grows (lb : LbCore) (b : Backend) (c : Nat) (countNow : Bool)
    (current : lb.backendCount ≤ c + 1) : Grows lb (publish lb b c countNow) := by
  unfold publish
  split
  · exact ⟨current, fun _ present => present⟩
  · exact store_grows lb c b

theorem picked_none (log : List Obs) : Picked log none := nofun

theorem countAbove_read (log : List Obs) {i n : Nat} (below : i < n) :
    CountAbove (log ++ [.count n]) i :=
  ⟨n, List.mem_append_right log (List.mem_singleton_self _), below⟩

theorem mem_append_read (log : List Obs) (o : Obs) : o ∈ log ++ [o] :=
  List.mem_append_right log (List.mem_singleton_self o)

/-- A thread's own step keeps what it knows of the core and of its reads, and reaches no
fault while the count is within the array. -/
theorem threadStep_selOk {lb lb' : LbCore} {choice : Bool} {pc pc' : Pc} {log obs : List Obs}
    (bounded : lb.backendCount ≤ MAX_BACKENDS) (selected : SelOk lb log pc)
    (moved : threadStep lb choice pc = some (lb', pc', obs)) : SelOk lb (log ++ obs) pc' := by
  cases pc with
  | rrStart =>
    cases moved
    split
    · exact picked_none _
    · exact Nat.zero_le _
  | rrTest tries =>
    cases moved
    split
    · assumption
    · exact picked_none _
  | rrFetch tries =>
    cases moved
    exact selected
  | rrMod tries v =>
    cases moved
    rw [if_neg (by simp only [SelOk] at selected; omega)]
    exact ⟨selected, Nat.mod_lt _ (by simp only [SelOk] at selected; omega),
      countAbove_read log (Nat.mod_lt _ (by simp only [SelOk] at selected; omega))⟩
  | rrSlot tries idx =>
    obtain ⟨running, inRange, above⟩ := selected
    simp only [threadStep, if_neg (show ¬MAX_BACKENDS ≤ idx by omega)] at moved
    cases moved
    split
    · next present =>
      exact ⟨running, inRange, above.append _, by rw [← present]; exact mem_append_read _ _, present⟩
    · exact Nat.succ_le_of_lt running
  | rrState tries idx =>
    obtain ⟨running, loaded⟩ := selected
    simp only [threadStep] at moved
    split at moved
    · next b slot =>
      cases moved
      split
      · next up =>
        rintro j ⟨⟩
        exact ⟨loaded.2.1.append _, List.mem_append_left _ loaded.2.2.1,
          by rw [← up]; exact mem_append_read _ _⟩
      · exact Nat.succ_le_of_lt running
    · next slot => exact absurd loaded.2.2.2 (by simp [slot])
  | lcTest i sel minc =>
    obtain ⟨inRange, picked⟩ := selected
    cases moved
    split
    · next below => exact ⟨below, countAbove_read log below, picked.append _⟩
    · exact picked.append _
  | lcSlot i sel minc =>
    obtain ⟨inRange, above, picked⟩ := selected
    simp only [threadStep, if_neg (show ¬MAX_BACKENDS ≤ i by omega)] at moved
    cases moved
    split
    · next present =>
      exact ⟨⟨inRange, above.append _, by rw [← present]; exact mem_append_read _ _, present⟩,
        picked.append _⟩
    · exact ⟨Nat.succ_le_of_lt inRange, picked.append _⟩
  | lcState i sel minc =>
    obtain ⟨loaded, picked⟩ := selected
    simp only [threadStep] at moved
    split at moved
    · next b slot =>
      cases moved
      split
      · next up =>
        exact ⟨loaded.append _, by rw [← up]; exact mem_append_read _ _, picked.append _⟩
      · exact ⟨Nat.succ_le_of_lt loaded.1, picked.append _⟩
    · next slot => exact absurd loaded.2.2.2 (by simp [slot])
  | lcConns i sel minc =>
    obtain ⟨loaded, up, picked⟩ := selected
    simp only [threadStep] at moved
    split at moved
    · next b slot =>
      cases moved
      split
      · refine ⟨Nat.succ_le_of_lt loaded.1, ?_⟩
        rintro j ⟨⟩
        exact ⟨loaded.2.1.append _, List.mem_append_left _ loaded.2.2.1, List.mem_append_left _ up⟩
      · exact ⟨Nat.succ_le_of_lt loaded.1, picked.append _⟩
    · next slot => exact absurd loaded.2.2.2 (by simp [slot])
  | addCheck b =>
    cases moved
    split <;> trivial
  | addAlloc b =>
    cases moved
    split <;> trivial
  | addLock b =>
    simp only [threadStep] at moved
    split at moved
    · cases moved
    · cases moved; trivial
  | addFirst | addSecond | addUnlock => cases moved; trivial
  | idle | addDone | selectDone | fault => cases moved

/-- No step enters `lb_core_add_backend`: only a start does. -/
theorem threadStep_adding {lb lb' : LbCore} {choice : Bool} {pc pc' : Pc} {obs : List Obs}
    (moved : threadStep lb choice pc = some (lb', pc', obs)) (adding : pc'.adding) : pc.adding := by
  cases pc <;> first
    | rfl
    | (simp only [threadStep] at moved; (try split at moved) <;> cases moved <;>
        (try split at adding) <;> simp [Pc.adding] at adding)

theorem addOk_of_not_adding (count : Nat) {pc : Pc} (notAdding : pc.adding = false) :
    AddOk count pc := by
  cases pc <;> trivial

/-- An add's own step keeps what it knows of the count, and writes a count of at most
`MAX_BACKENDS`; no step empties a slot or lowers the count. -/
theorem threadStep_addOk {lb lb' : LbCore} {choice : Bool} {pc pc' : Pc} {obs : List Obs}
    (bounded : lb.backendCount ≤ MAX_BACKENDS) (added : AddOk lb.backendCount pc)
    (moved : threadStep lb choice pc = some (lb', pc', obs)) :
    AddOk lb'.backendCount pc' ∧ lb'.backendCount ≤ MAX_BACKENDS ∧ Grows lb lb' := by
  have core := threadStep_core moved
  subst core
  cases adding : pc.adding
  · obtain ⟨count, slots⟩ := coreAfter_keeps lb adding
    have notAdding : pc'.adding = false := Bool.eq_false_iff.mpr fun entered =>
      absurd (threadStep_adding moved entered) (by simp [adding])
    rw [count]
    exact ⟨addOk_of_not_adding _ notAdding, bounded, le_of_eq count.symm, by simp [slots]⟩
  · cases pc <;> simp only [Pc.adding, Bool.false_eq_true] at adding
    case addCheck b =>
      cases moved
      split
      · exact ⟨trivial, bounded, le_rfl, fun _ => id⟩
      · next room => exact ⟨Nat.lt_of_not_le room, bounded, le_rfl, fun _ => id⟩
    case addAlloc b =>
      cases moved
      split
      · exact ⟨added, bounded, le_rfl, fun _ => id⟩
      · exact ⟨trivial, bounded, le_rfl, fun _ => id⟩
    case addLock b =>
      simp only [threadStep] at moved
      split at moved
      · cases moved
      · cases moved
        exact ⟨⟨added, rfl⟩, bounded, le_rfl, fun _ => id⟩
    case addFirst b c countFirst =>
      cases moved
      obtain ⟨room, rfl⟩ := added
      refine ⟨⟨room, ?_⟩, ?_, publish_grows lb b _ countFirst (Nat.le_succ _)⟩ <;>
        cases countFirst <;> simp [coreAfter, publish] <;> omega
    case addSecond b c countFirst =>
      cases moved
      obtain ⟨room, counted⟩ := added
      refine ⟨trivial, ?_, publish_grows lb b c _ (by split at counted <;> omega)⟩
      cases countFirst <;> simp [coreAfter, publish] at counted ⊢ <;> omega
    case addUnlock =>
      cases moved
      exact ⟨trivial, bounded, le_rfl, fun _ => id⟩

theorem begin_ok (count : Nat) (lb : LbCore) (call : Call) :
    AddOk count call.begin ∧ SelOk lb [] call.begin := by
  cases call with
  | addBackend host port weight =>
    cases host with
    | none => exact ⟨trivial, trivial⟩
    | some host =>
      simp only [Call.begin]
      split <;> exact ⟨trivial, trivial⟩
  | rrSelect => exact ⟨trivial, trivial⟩
  | leastconnSelect => exact ⟨trivial, Nat.zero_le _, picked_none _⟩

theorem begin_adding {call : Call} (adding : call.begin.adding) :
    ∃ host port weight, call = .addBackend host port weight := by
  cases call with
  | addBackend host port weight => exact ⟨host, port, weight, rfl⟩
  | rrSelect | leastconnSelect => simp [Call.begin, Pc.adding] at adding

/-- The guard that keeps adds from overlapping: an add starts only while no thread is in one. -/
def AddsSerial (s : Sys) : Action → Prop
  | .start _ (.addBackend ..) => ∀ t, (s.pcs t).adding = false
  | _ => True

/-- The states reachable from `s₀` with adds serialized. -/
inductive SerialReach (s₀ : Sys) : Sys → Prop
  | refl : SerialReach s₀ s₀
  | tail {s s' : Sys} {a : Action} : SerialReach s₀ s → AddsSerial s a → step s a = some s' →
      SerialReach s₀ s'

/-- Whether an action starts an add. -/
def Action.startsAdd : Action → Bool
  | .start _ (.addBackend ..) => true
  | _ => false

theorem addsSerial_of_startsAdd {s : Sys} {a : Action} (other : a.startsAdd = false) :
    AddsSerial s a := by
  cases a with
  | start t call =>
    cases call with
    | addBackend => cases other
    | rrSelect | leastconnSelect => trivial
  | _ => trivial

theorem addsSerial_idleOn (lb : LbCore) (a : Action) : AddsSerial (idleOn lb) a := by
  cases a with
  | start t call =>
    cases call with
    | addBackend => exact fun _ => rfl
    | rrSelect | leastconnSelect => trivial
  | _ => trivial

/-- A run from idle threads that starts no add after its first action is serialized. -/
theorem serialReach_of_run {lb : LbCore} : ∀ {acts : List Action} {states : List Sys},
    runTrace (idleOn lb) acts = some states → (∀ a ∈ acts.tail, a.startsAdd = false) →
    ∀ s ∈ states, SerialReach (idleOn lb) s
  | [], _, ran, _ => by
    cases ran
    exact List.forall_mem_singleton.mpr .refl
  | a :: _, _, ran, noAdds => by
    obtain ⟨s₁, later, first, ranLater, rfl⟩ := runTrace_cons ran
    exact List.forall_mem_cons.mpr ⟨.refl, runTrace_keeps AddsSerial
      (fun reach serial moved => .tail reach serial moved) (.tail .refl (addsSerial_idleOn lb a) first)
      ranLater fun p mem => addsSerial_of_startsAdd (noAdds p.2 (List.of_mem_zip mem).2)⟩

/-- A state that passes `check` in such a run is reached with adds serialized. -/
theorem exists_serialReach_of_run (lb : LbCore) (acts : List Action) (check : Sys → Bool)
    (found : ((runTrace (idleOn lb) acts).map fun states => states.any check) = some true)
    (noAdds : ∀ a ∈ acts.tail, a.startsAdd = false) :
    ∃ s, SerialReach (idleOn lb) s ∧ check s = true := by
  cases ran : runTrace (idleOn lb) acts with
  | none => simp [ran] at found
  | some states =>
    rw [ran, Option.map_some', Option.some.injEq] at found
    obtain ⟨s, mem, passes⟩ := List.any_eq_true.mp found
    exact ⟨s, serialReach_of_run ran noAdds s mem, passes⟩

/-- A core one backend short of full, its cursor at 256. -/
def almostFull : LbCore :=
  { sampleCore with
    backendCount := 255
    backends := fun i => if i < 255 then some (Registry.newBackend ⟨[49], by decide⟩ 80 1) else none
    rrIdx := 256 }

/-- Two adds that both read the count before either takes the lock. -/
def racingAdds : List Action :=
  [.start 0 (.addBackend (some ⟨[50], by decide⟩) 81 1),
    .start 1 (.addBackend (some ⟨[51], by decide⟩) 82 1),
    .run 0 false, .run 1 false, .run 0 true, .run 1 true,
    .run 0 false, .run 0 false, .run 0 false, .run 0 false,
    .run 1 false, .run 1 false, .run 1 false, .run 1 false]

/-- Without the guard, both adds pass the unlocked check at 255 and return `LB_OK`: the second
stores to `backends[256]`, past the array, and the count reaches 257. -/
theorem unlocked_check_overflows :
    ((runTrace (idleOn almostFull) racingAdds).bind List.getLast?).map
      (fun s => (s.core.backendCount, (s.core.backends 256).isSome, s.pcs 0, s.pcs 1)) =
      some (257, true, .addDone LB_OK, .addDone LB_OK) := by
  decide

/-- What holds in every state reached with adds serialized. -/
structure Inv (s : Sys) : Prop where
  bounded : s.core.backendCount ≤ MAX_BACKENDS
  oneAdder : ∀ t t', (s.pcs t).adding → (s.pcs t').adding → t = t'
  adds : ∀ t, AddOk s.core.backendCount (s.pcs t)
  selects : ∀ t, SelOk s.core (s.logs t) (s.pcs t)

theorem inv_idleOn (lb : LbCore) (bounded : lb.backendCount ≤ MAX_BACKENDS) : Inv (idleOn lb) :=
  ⟨bounded, nofun, fun _ => trivial, fun _ => trivial⟩

theorem inv_start {s : Sys} {t : Nat} {call : Call} (inv : Inv s) (serial : AddsSerial s (.start t call))
    (free : (s.pcs t).returned) :
    Inv { s with pcs := Function.update s.pcs t call.begin, logs := Function.update s.logs t [] } := by
  have only : ∀ t', (Function.update s.pcs t call.begin t').adding → call.begin.adding ∧ t' = t ∨ (s.pcs t').adding := by
    intro t' adding
    by_cases here : t' = t
    · subst here; simp only [Function.update_same] at adding; exact .inl ⟨adding, rfl⟩
    · rw [Function.update_noteq here] at adding; exact .inr adding
  refine ⟨inv.bounded, fun t₁ t₂ adding₁ adding₂ => ?_, fun t' => ?_, fun t' => ?_⟩
  · have alone : call.begin.adding → ∀ t', (s.pcs t').adding = false := fun adding => by
      obtain ⟨host, port, weight, rfl⟩ := begin_adding adding
      exact serial
    rcases only t₁ adding₁ with ⟨entered, rfl⟩ | before₁ <;> rcases only t₂ adding₂ with ⟨entered', rfl⟩ | before₂
    · rfl
    · simp [alone entered] at before₂
    · simp [alone entered'] at before₁
    · exact inv.oneAdder t₁ t₂ before₁ before₂
  · by_cases here : t' = t
    · subst here; simp only [Function.update_same]; exact (begin_ok _ s.core call).1
    · simp only [Function.update_noteq here]; exact inv.adds t'
  · by_cases here : t' = t
    · subst here; simp only [Function.update_same]; exact (begin_ok 0 s.core call).2
    · simp only [Function.update_noteq here]; exact inv.selects t'

theorem inv_run {s : Sys} {t : Nat} {choice : Bool} {lb' : LbCore} {pc' : Pc} {obs : List Obs}
    (inv : Inv s) (moved : threadStep s.core choice (s.pcs t) = some (lb', pc', obs)) :
    Inv ⟨lb', Function.update s.pcs t pc', Function.update s.logs t (s.logs t ++ obs)⟩ := by
  obtain ⟨added, bounded, grows⟩ := threadStep_addOk inv.bounded (inv.adds t) moved
  have selected := (threadStep_selOk inv.bounded (inv.selects t) moved).grow grows
  have before : ∀ t', (Function.update s.pcs t pc' t').adding → (s.pcs t').adding :=
    fun t' adding => by
      by_cases here : t' = t
      · subst here
        rw [Function.update_same] at adding
        exact threadStep_adding moved adding
      · rwa [Function.update_noteq here] at adding
  refine ⟨bounded, fun t₁ t₂ adding₁ adding₂ => inv.oneAdder t₁ t₂ (before t₁ adding₁)
    (before t₂ adding₂), fun t' => ?_, fun t' => ?_⟩
  · by_cases here : t' = t
    · subst here
      simp only [Function.update_same]
      exact added
    · simp only [Function.update_noteq here]
      cases adding : (s.pcs t').adding
      · exact addOk_of_not_adding _ adding
      · have other : (s.pcs t).adding = false := Bool.eq_false_iff.mpr fun running =>
          here (inv.oneAdder t' t adding running)
        rw [threadStep_core moved, (coreAfter_keeps s.core other).1]
        exact inv.adds t'
  · by_cases here : t' = t
    · subst here
      simp only [Function.update_same]
      exact selected
    · simp only [Function.update_noteq here]
      exact (inv.selects t').grow grows

theorem inv_store {s : Sys} (inv : Inv s) (i : Nat) (b : Backend) :
    Inv { s with core := s.core.store i b } :=
  ⟨inv.bounded, inv.oneAdder, inv.adds, fun t => (inv.selects t).grow (store_grows s.core i b)⟩

/-- One step with adds serialized keeps the invariant. -/
theorem inv_step {s s' : Sys} {a : Action} (inv : Inv s) (serial : AddsSerial s a)
    (moved : step s a = some s') : Inv s' := by
  rcases step_cases moved with ⟨t, call, rfl, returned, rfl⟩ |
    ⟨t, choice, core, pc, obs, rfl, stepped, rfl⟩ | ⟨i, b, b', -, rfl⟩
  · exact inv_start inv serial returned
  · exact inv_run inv stepped
  · exact inv_store inv i b'

theorem inv_reach {s₀ s : Sys} (reach : SerialReach s₀ s) (start : Inv s₀) : Inv s := by
  induction reach with
  | refl => exact start
  | tail _ serial moved ih => exact inv_step ih serial moved

/-- Whether a thread is inside a select. -/
def Pc.selecting : Pc → Bool
  | .rrStart | .rrTest _ | .rrFetch _ | .rrMod .. | .rrSlot .. | .rrState .. => true
  | .lcTest .. | .lcSlot .. | .lcState .. | .lcConns .. => true
  | _ => false

/-- The loop counter of a select: `tries` of the round robin, `i` of the scan. -/
def Pc.iterations : Pc → Nat
  | .rrTest n | .rrFetch n | .rrMod n _ | .rrSlot n _ | .rrState n _ => n
  | .lcTest n .. | .lcSlot n .. | .lcState n .. | .lcConns n .. => n
  | _ => 0

/-- A bound on the steps a select has left: five per round of the round robin's loop, four
per round of the scan's. -/
def Pc.rank : Pc → Nat
  | .rrStart => 5 * MAX_BACKENDS + 2
  | .rrTest n => 5 * (MAX_BACKENDS - n) + 1
  | .rrFetch n => 5 * (MAX_BACKENDS - n)
  | .rrMod n _ => 5 * (MAX_BACKENDS - n) - 1
  | .rrSlot n _ => 5 * (MAX_BACKENDS - n) - 2
  | .rrState n _ => 5 * (MAX_BACKENDS - n) - 3
  | .lcTest n .. => 4 * (MAX_BACKENDS - n) + 1
  | .lcSlot n .. => 4 * (MAX_BACKENDS - n)
  | .lcState n .. => 4 * (MAX_BACKENDS - n) - 1
  | .lcConns n .. => 4 * (MAX_BACKENDS - n) - 2
  | _ => 0

theorem selOk_iterations {lb : LbCore} {log : List Obs} {pc : Pc} (selected : SelOk lb log pc) :
    pc.iterations ≤ lb.backendCount := by
  cases pc <;> simp only [SelOk, Pc.iterations] at selected ⊢ <;> first
    | omega
    | exact Nat.zero_le _
    | exact Nat.le_of_lt selected.1
    | exact Nat.le_of_lt selected.1.1

/-- A select never waits, and each of its steps lowers its rank. -/
theorem threadStep_progress {lb : LbCore} {log : List Obs} {pc : Pc} (choice : Bool)
    (bounded : lb.backendCount ≤ MAX_BACKENDS) (selected : SelOk lb log pc)
    (selecting : pc.selecting) :
    ∃ lb' pc' obs, threadStep lb choice pc = some (lb', pc', obs) ∧ pc'.rank < pc.rank := by
  have counted := selOk_iterations selected
  cases pc <;> simp only [Pc.selecting, Bool.false_eq_true] at selecting <;>
    simp only [Pc.iterations] at counted
  case rrSlot tries idx =>
    obtain ⟨running, inRange, -⟩ := selected
    simp only [threadStep, if_neg (show ¬MAX_BACKENDS ≤ idx by omega)]
    refine ⟨_, _, _, rfl, ?_⟩
    split <;> simp only [Pc.rank] <;> omega
  case lcSlot i sel minc =>
    obtain ⟨inRange, -⟩ := selected
    simp only [threadStep, if_neg (show ¬MAX_BACKENDS ≤ i by omega)]
    refine ⟨_, _, _, rfl, ?_⟩
    split <;> simp only [Pc.rank] <;> omega
  case rrState tries idx =>
    have running := selected.1
    simp only [threadStep]
    split
    · refine ⟨_, _, _, rfl, ?_⟩
      split <;> simp only [Pc.rank] <;> omega
    · exact ⟨_, _, _, rfl, by simp only [Pc.rank]; omega⟩
  case lcState i sel minc =>
    have inRange := selected.1.1
    simp only [threadStep]
    split
    · refine ⟨_, _, _, rfl, ?_⟩
      split <;> simp only [Pc.rank] <;> omega
    · exact ⟨_, _, _, rfl, by simp only [Pc.rank]; omega⟩
  case lcConns i sel minc =>
    have inRange := selected.1.1
    simp only [threadStep]
    split
    · refine ⟨_, _, _, rfl, ?_⟩
      split <;> simp only [Pc.rank] <;> omega
    · exact ⟨_, _, _, rfl, by simp only [Pc.rank]; omega⟩
  all_goals
    simp only [SelOk] at selected
    refine ⟨_, _, _, rfl, ?_⟩
    (try split) <;> simp only [Pc.rank] <;> omega

/-- With adds serialized, every thread of every reachable state: never faults, that is, never
takes a modulus by zero nor reads a slot past the array; has run its select's loop at most
`MAX_BACKENDS` times; when its select returned a slot, read a count above it, read the slot
non-NULL and read its state as UP during the call; and, inside a select, can always step,
each step lowering its rank. -/
theorem serial_selects_safe (lb : LbCore) (bounded : lb.backendCount ≤ MAX_BACKENDS) (s : Sys)
    (reach : SerialReach (idleOn lb) s) (t : Nat) :
    s.pcs t ≠ .fault ∧ (s.pcs t).iterations ≤ MAX_BACKENDS ∧
    (∀ i, s.pcs t = .selectDone (some i) →
      CountAbove (s.logs t) i ∧ .slot i true ∈ s.logs t ∧ .state i BACKEND_UP ∈ s.logs t) ∧
    ((s.pcs t).selecting → ∃ core pc obs, threadStep s.core false (s.pcs t) = some (core, pc, obs) ∧
      pc.rank < (s.pcs t).rank) := by
  have inv := inv_reach reach (inv_idleOn lb bounded)
  have selected := inv.selects t
  refine ⟨fun faulted => ?_, (selOk_iterations selected).trans inv.bounded, fun i returned => ?_,
    threadStep_progress false inv.bounded selected⟩
  · rw [faulted] at selected
    exact selected
  · rw [returned] at selected
    exact selected i rfl

/-- One backend, UP, in slot 0. -/
def oneUp : LbCore :=
  { sampleCore with
    backendCount := 1
    backends := fun i =>
      if i = 0 then some { Registry.newBackend ⟨[49], by decide⟩ 80 1 with state := BACKEND_UP }
      else none }

/-- An add on thread 0 and a round-robin select on thread 1, their steps alternating: the
select reads the count before the add publishes and the slot after. -/
def addBesideSelect : List Action :=
  [.start 0 (.addBackend (some ⟨[50], by decide⟩) 81 1), .start 1 .rrSelect,
    .run 0 false, .run 1 false, .run 0 true, .run 1 false, .run 0 false, .run 1 false,
    .run 0 true, .run 1 false, .run 0 false, .run 1 false, .run 0 false, .run 1 false]

theorem serial_selects_safe_sample :
    ∃ s, SerialReach (idleOn oneUp) s ∧ s.pcs 0 = .addDone LB_OK ∧ s.pcs 1 = .selectDone (some 0) ∧
      CountAbove (s.logs 1) 0 ∧ .slot 0 true ∈ s.logs 1 ∧ .state 0 BACKEND_UP ∈ s.logs 1 := by
  obtain ⟨s, reach, done⟩ := exists_serialReach_of_run oneUp addBesideSelect
    (fun s => s.pcs 0 == .addDone LB_OK && s.pcs 1 == .selectDone (some 0)) (by decide) (by decide)
  simp only [Bool.and_eq_true, beq_iff_eq] at done
  exact ⟨s, reach, done.1, done.2, (serial_selects_safe oneUp (by decide) s reach 1).2.2.1 0 done.2⟩

end UltraBalancer.Concurrent
