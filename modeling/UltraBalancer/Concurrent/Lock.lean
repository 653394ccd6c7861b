import UltraBalancer.Concurrent.Serial

/-!
`backends_lock` over every interleaving, overlapping adds included. At most one thread is
between its `pthread_spin_lock` and its `pthread_spin_unlock`, the lock word is set exactly
while one is, and that thread's count is the one it read under the lock, since only it writes
the count. So the two writes of `backends[backend_count++] = b` of different adds never mix:
the count never drops and grows by one at a time, no slot empties, and the slots in use are
always `backends[0..k)`, with `k = backend_count` except while an add is between its two
writes. What overlapping adds break is the capacity check made before the lock, after which an
add may store past the array, over `rr_idx` and the fields after it; the results here are for
the runs in which no add does.
-/

namespace UltraBalancer.Concurrent
open LbStatus Lifecycle

/-- Whether a thread holds `backends_lock`. -/
def Pc.holdsLock : Pc → Bool
  | .addFirst .. | .addSecond .. | .addUnlock => true
  | _ => false

/-- How many slots are in use while the holder is at `pc`, when `count` slots are in use
outside a publication: one fewer after the count is written, one more after the slot is. -/
def Pc.inUse (count : Nat) : Pc → Nat
  | .addSecond _ c countFirst => if countFirst then c else c + 1
  | _ => count

/-- What the holder at `pc` knows of the count: the value it read under the lock, changed
only by its own write. -/
def LockedCount (count : Nat) : Pc → Prop
  | .addFirst _ c _ => count = c
  | .addSecond _ c countFirst => count = if countFirst then c + 1 else c
  | _ => True

/-- The slots in use are `backends[0..k)`. -/
def InUse (lb : LbCore) (k : Nat) : Prop := ∀ i, (lb.backends i).isSome ↔ i < k

/-- The position of the lock's holder, or `idle` when no thread holds it. -/
def holderPc (pcs : Nat → Pc) (holder : Option Nat) : Pc := holder.elim .idle pcs

/-- The lock in a state whose holder is `holder`. -/
structure LockInv (s : Sys) (holder : Option Nat) : Prop where
  holds : ∀ t, (s.pcs t).holdsLock ↔ holder = some t
  flag : s.core.backendsLock = holder.isSome
  counted : ∀ t, LockedCount s.core.backendCount (s.pcs t)

/-- The slots in use are a prefix, of the length the holder's position gives. -/
def Layout (s : Sys) (holder : Option Nat) : Prop :=
  InUse s.core ((holderPc s.pcs holder).inUse s.core.backendCount)

/-- The states reachable from `s₀` by any interleaving. -/
inductive Reach (s₀ : Sys) : Sys → Prop
  | refl : Reach s₀ s₀
  | tail {s s' : Sys} {a : Action} : Reach s₀ s → step s a = some s' → Reach s₀ s'

/-- Whether an action keeps the run within the array: an add takes `backends_lock` only with
the count below `MAX_BACKENDS`, so that its `backends[backend_count++] = b` stores into the
array. -/
def inArray (s : Sys) : Action → Bool
  | .run t _ =>
    match s.pcs t with
    | .addLock _ => decide (s.core.backendCount < MAX_BACKENDS)
    | _ => true
  | _ => true

/-- The states reachable from `s₀` by the interleavings that store nothing past the array. -/
inductive ArrayReach (s₀ : Sys) : Sys → Prop
  | refl : ArrayReach s₀ s₀
  | tail {s s' : Sys} {a : Action} : ArrayReach s₀ s → inArray s a → step s a = some s' →
      ArrayReach s₀ s'

/-- The slot the holder at `pc` publishes to is in the array. -/
def PublishesWithin : Pc → Prop
  | .addFirst _ c _ | .addSecond _ c _ => c < MAX_BACKENDS
  | _ => True

/-- A state of a run within the array: the count is at most `MAX_BACKENDS` and every
publication under way is to a slot of the array. -/
structure Within (s : Sys) : Prop where
  bounded : s.core.backendCount ≤ MAX_BACKENDS
  publishing : ∀ t, PublishesWithin (s.pcs t)

@[simp] theorem publish_backendsLock (lb : LbCore) (b : Backend) (c : Nat) (countNow : Bool) :
    (publish lb b c countNow).backendsLock = lb.backendsLock := by
  cases countNow <;> rfl

@[simp] theorem publish_backendCount (lb : LbCore) (b : Backend) (c : Nat) (countNow : Bool) :
    (publish lb b c countNow).backendCount = if countNow then c + 1 else lb.backendCount := by
  cases countNow <;> rfl

@[simp] theorem holderPc_none (pcs : Nat → Pc) : holderPc pcs none = .idle := rfl

@[simp] theorem holderPc_some (pcs : Nat → Pc) (t : Nat) : holderPc pcs (some t) = pcs t := rfl

theorem holderPc_update {pcs : Nat → Pc} {holder : Option Nat} {t : Nat} (pc : Pc)
    (other : holder ≠ some t) : holderPc (Function.update pcs t pc) holder = holderPc pcs holder := by
  cases holder with
  | none => rfl
  | some u => exact Function.update_noteq (fun same => other (congrArg some same)) pc pcs

theorem begin_holdsLock (call : Call) : call.begin.holdsLock = false := by
  cases call with
  | addBackend host port weight =>
    cases host with
    | none => rfl
    | some host =>
      simp only [Call.begin]
      split <;> rfl
  | rrSelect | leastconnSelect => rfl

theorem returned_holdsLock {pc : Pc} (returned : pc.returned) : pc.holdsLock = false := by
  cases pc <;> first | rfl | simp [Pc.returned] at returned

theorem lockedCount_of_free (count : Nat) {pc : Pc} (free : pc.holdsLock = false) :
    LockedCount count pc := by
  cases pc <;> trivial

/-- The counts the threads know after thread `t` moves to `pc`. -/
theorem counted_update {pcs : Nat → Pc} {count : Nat} {t : Nat} {pc : Pc}
    (others : ∀ t', t' ≠ t → LockedCount count (pcs t')) (mine : LockedCount count pc) :
    ∀ t', LockedCount count (Function.update pcs t pc t') := by
  intro t'
  by_cases here : t' = t
  · rw [here, Function.update_same]
    exact mine
  · rw [Function.update_noteq here]
    exact others t' here

theorem inUse_store_next {lb : LbCore} {c : Nat} (b : Backend) (used : InUse lb c) :
    InUse (lb.store c b) (c + 1) := by
  intro i
  by_cases here : i = c
  · simp [here]
  · simp only [LbCore.store_backends, Function.update_noteq here, used i]
    omega

theorem inUse_store_present {lb : LbCore} {i k : Nat} (b : Backend)
    (present : (lb.backends i).isSome) (used : InUse lb k) : InUse (lb.store i b) k := by
  intro j
  by_cases here : j = i
  · subst here
    simp only [LbCore.store_backends, Function.update_same, Option.isSome_some, true_iff]
    exact (used j).mp present
  · simp only [LbCore.store_backends, Function.update_noteq here]
    exact used j

/-- The holders after thread `t` moves to `pc`, from the holders before. -/
theorem holds_update {pcs : Nat → Pc} {holder holder' : Option Nat} {t : Nat} {pc : Pc}
    (holds : ∀ t', (pcs t').holdsLock ↔ holder = some t')
    (others : ∀ t', t' ≠ t → (holder = some t' ↔ holder' = some t'))
    (mine : pc.holdsLock ↔ holder' = some t) :
    ∀ t', (Function.update pcs t pc t').holdsLock ↔ holder' = some t' := by
  intro t'
  by_cases here : t' = t
  · rw [here, Function.update_same]
    exact mine
  · rw [Function.update_noteq here, holds t']
    exact others t' here

/-- What a step of a thread at `pc` does to the lock: outside it, nothing to the lock word,
the count or a slot; inside, it takes the free lock and reads the count, makes one of the two
writes, or releases the lock. -/
theorem threadStep_lock {lb lb' : LbCore} {choice : Bool} {pc pc' : Pc} {obs : List Obs}
    (moved : threadStep lb choice pc = some (lb', pc', obs)) :
    (pc.holdsLock = false ∧ pc'.holdsLock = false ∧ lb'.backendsLock = lb.backendsLock ∧
      lb'.backendCount = lb.backendCount ∧ lb'.backends = lb.backends) ∨
    (∃ b, pc = .addLock b ∧ lb.backendsLock = false ∧ lb' = { lb with backendsLock := true } ∧
      pc' = .addFirst b lb.backendCount choice) ∨
    (∃ b c countFirst, pc = .addFirst b c countFirst ∧ lb' = publish lb b c countFirst ∧
      pc' = .addSecond b c countFirst) ∨
    (∃ b c countFirst, pc = .addSecond b c countFirst ∧ lb' = publish lb b c !countFirst ∧
      pc' = .addUnlock) ∨
    (pc = .addUnlock ∧ lb' = { lb with backendsLock := false } ∧ pc' = .addDone LB_OK) := by
  have core := threadStep_core moved
  subst core
  cases pc
  case addLock b =>
    simp only [threadStep] at moved
    split at moved
    · cases moved
    · next free =>
      cases moved
      exact .inr (.inl ⟨b, rfl, by simpa using free, rfl, rfl⟩)
  case addFirst b c countFirst =>
    cases moved
    exact .inr (.inr (.inl ⟨b, c, countFirst, rfl, rfl, rfl⟩))
  case addSecond b c countFirst =>
    cases moved
    exact .inr (.inr (.inr (.inl ⟨b, c, countFirst, rfl, rfl, rfl⟩)))
  case addUnlock =>
    cases moved
    exact .inr (.inr (.inr (.inr ⟨rfl, rfl, rfl⟩)))
  all_goals
    refine .inl ⟨rfl, ?_, rfl, rfl, rfl⟩
    simp only [threadStep] at moved
    (try split at moved) <;> cases moved <;> (try split) <;> rfl

theorem lockInv_run {s : Sys} {holder : Option Nat} {t : Nat} {choice : Bool} {lb' : LbCore}
    {pc' : Pc} {obs : List Obs} (inv : LockInv s holder)
    (moved : threadStep s.core choice (s.pcs t) = some (lb', pc', obs)) :
    ∃ holder', LockInv ⟨lb', Function.update s.pcs t pc', Function.update s.logs t (s.logs t ++ obs)⟩
      holder' ∧
      (Layout s holder →
        Layout ⟨lb', Function.update s.pcs t pc', Function.update s.logs t (s.logs t ++ obs)⟩ holder') := by
  have others_free : ∀ t', holder = some t → t' ≠ t → (s.pcs t').holdsLock = false :=
    fun t' mine other => Bool.eq_false_iff.mpr fun holds =>
      other (Option.some.inj (((inv.holds t').mp holds).symm.trans mine))
  rcases threadStep_lock moved with ⟨free, free', lock, count, slots⟩ |
    ⟨b, here, unlocked, rfl, rfl⟩ | ⟨b, c, countFirst, here, rfl, rfl⟩ |
    ⟨b, c, countFirst, here, rfl, rfl⟩ | ⟨here, rfl, rfl⟩
  · have notMine : holder ≠ some t := fun mine => by simpa [free] using (inv.holds t).mpr mine
    refine ⟨holder, ⟨holds_update inv.holds (fun _ _ => Iff.rfl) (by simp [free', notMine]),
      lock ▸ inv.flag, counted_update (fun t' _ => count ▸ inv.counted t')
        (lockedCount_of_free _ free')⟩, fun layout => ?_⟩
    simp only [Layout, InUse, slots, count, holderPc_update _ notMine] at layout ⊢
    exact layout
  · have noHolder : holder = none := by
      cases holder with
      | none => rfl
      | some u => simpa [unlocked] using inv.flag
    subst noHolder
    refine ⟨some t, ⟨holds_update inv.holds (fun t' other => by simp [Ne.symm other])
      (by simp [Pc.holdsLock]), rfl, counted_update (fun t' _ => inv.counted t') rfl⟩,
      fun layout => ?_⟩
    simp only [Layout, holderPc_some, Function.update_same]
    exact layout
  · have mine : holder = some t := (inv.holds t).mp (by simp [here, Pc.holdsLock])
    have before : s.core.backendCount = c := by simpa [here, LockedCount] using inv.counted t
    subst mine
    refine ⟨some t, ⟨holds_update inv.holds (fun _ _ => Iff.rfl) (by simp [Pc.holdsLock]),
      by simpa using inv.flag, counted_update (fun t' other => lockedCount_of_free _
        (others_free t' rfl other)) (by cases countFirst <;> simp [LockedCount, before])⟩,
      fun layout => ?_⟩
    simp only [Layout, holderPc_some, here, Pc.inUse, before] at layout
    simp only [Layout, holderPc_some, Function.update_same, Pc.inUse, publish_backendCount]
    cases countFirst
    · exact inUse_store_next b layout
    · exact layout
  · have mine : holder = some t := (inv.holds t).mp (by simp [here, Pc.holdsLock])
    have before := inv.counted t
    subst mine
    refine ⟨some t, ⟨holds_update inv.holds (fun _ _ => Iff.rfl) (by simp [Pc.holdsLock]),
      by simpa using inv.flag, counted_update (fun t' other => lockedCount_of_free _
        (others_free t' rfl other)) trivial⟩, fun layout => ?_⟩
    simp only [Layout, holderPc_some, here, Pc.inUse] at layout
    simp only [here, LockedCount] at before
    simp only [Layout, holderPc_some, Function.update_same, Pc.inUse, publish_backendCount]
    cases countFirst
    · simpa [before] using layout
    · simpa [before] using inUse_store_next b layout
  · have mine : holder = some t := (inv.holds t).mp (by simp [here, Pc.holdsLock])
    subst mine
    refine ⟨none, ⟨holds_update inv.holds (fun t' other => by simp [Ne.symm other])
      (by simp [Pc.holdsLock]), rfl, counted_update (fun t' _ => inv.counted t') trivial⟩,
      fun layout => ?_⟩
    simp only [Layout, holderPc_some, here] at layout
    exact layout

theorem lockInv_start {s : Sys} {holder : Option Nat} {t : Nat} {call : Call}
    (inv : LockInv s holder) (returned : (s.pcs t).returned) :
    LockInv { s with pcs := Function.update s.pcs t call.begin, logs := Function.update s.logs t [] }
      holder ∧
      (Layout s holder →
        Layout { s with pcs := Function.update s.pcs t call.begin, logs := Function.update s.logs t [] }
          holder) := by
  have notMine : holder ≠ some t := fun mine => by
    simpa [returned_holdsLock returned] using (inv.holds t).mpr mine
  refine ⟨⟨holds_update inv.holds (fun _ _ => Iff.rfl) (by simp [begin_holdsLock, notMine]),
    inv.flag, counted_update (fun t' _ => inv.counted t')
      (lockedCount_of_free _ (begin_holdsLock call))⟩, fun layout => ?_⟩
  simp only [Layout, holderPc_update _ notMine] at layout ⊢
  exact layout

/-- One step of any thread, or of the environment, keeps the lock's invariant, and keeps the
slots in use a prefix. -/
theorem lockInv_step {s s' : Sys} {holder : Option Nat} {a : Action} (inv : LockInv s holder)
    (moved : step s a = some s') :
    ∃ holder', LockInv s' holder' ∧ (Layout s holder → Layout s' holder') := by
  rcases step_cases moved with ⟨t, call, rfl, returned, rfl⟩ |
    ⟨t, choice, core, pc, obs, rfl, stepped, rfl⟩ | ⟨i, b, b', present, rfl⟩
  · exact ⟨holder, lockInv_start inv returned⟩
  · exact lockInv_run inv stepped
  · exact ⟨holder, ⟨inv.holds, inv.flag, inv.counted⟩,
      inUse_store_present _ (by simp [present])⟩

theorem lockInv_reach {lb : LbCore} (free : lb.backendsLock = false) {s : Sys}
    (reach : Reach (idleOn lb) s) :
    ∃ holder, LockInv s holder ∧ (InUse lb lb.backendCount → Layout s holder) := by
  induction reach with
  | refl => exact ⟨none, ⟨fun _ => by simp [idleOn, Pc.holdsLock], free, fun _ => trivial⟩, id⟩
  | tail _ moved ih =>
    obtain ⟨holder, inv, layout⟩ := ih
    obtain ⟨holder', inv', keeps⟩ := lockInv_step inv moved
    exact ⟨holder', inv', fun dense => keeps (layout dense)⟩

theorem publishesWithin_of_free {pc : Pc} (free : pc.holdsLock = false) : PublishesWithin pc := by
  cases pc <;> trivial

theorem publishesWithin_of_addOk {count : Nat} {pc : Pc} (added : AddOk count pc) :
    PublishesWithin pc := by
  cases pc <;> first | trivial | exact added.1

theorem within_of_inv {s : Sys} (inv : Inv s) : Within s :=
  ⟨inv.bounded, fun t => publishesWithin_of_addOk (inv.adds t)⟩

/-- One step within the array keeps the count within the array and every publication in it. -/
theorem within_step {s s' : Sys} {a : Action} (within : Within s) (inside : inArray s a)
    (moved : step s a = some s') : Within s' := by
  have bounded := within.bounded
  have update : ∀ {t : Nat} {pc : Pc}, PublishesWithin pc →
      ∀ t', PublishesWithin (Function.update s.pcs t pc t') := fun mine =>
    (Function.forall_update_iff _ fun _ pc => PublishesWithin pc).mpr ⟨mine, fun t' _ => within.publishing t'⟩
  rcases step_cases moved with ⟨t, call, rfl, -, rfl⟩ |
    ⟨t, choice, core, pc, obs, rfl, stepped, rfl⟩ | ⟨i, b, b', -, rfl⟩
  · exact ⟨bounded, update (publishesWithin_of_free (begin_holdsLock call))⟩
  · rcases threadStep_lock stepped with ⟨-, free', -, count, -⟩ | ⟨b, here, -, rfl, rfl⟩ |
      ⟨b, c, countFirst, here, rfl, rfl⟩ | ⟨b, c, countFirst, here, rfl, rfl⟩ | ⟨-, rfl, rfl⟩
    · exact ⟨count ▸ bounded, update (publishesWithin_of_free free')⟩
    · simp only [inArray, here, decide_eq_true_eq] at inside
      exact ⟨bounded, update inside⟩
    · have room : c < MAX_BACKENDS := by simpa [here, PublishesWithin] using within.publishing t
      exact ⟨by rw [publish_backendCount]; split <;> omega, update room⟩
    · have room : c < MAX_BACKENDS := by simpa [here, PublishesWithin] using within.publishing t
      exact ⟨by rw [publish_backendCount]; split <;> omega, update trivial⟩
    · exact ⟨bounded, update trivial⟩
  · exact ⟨bounded, within.publishing⟩

theorem arrayReach_within {lb : LbCore} (bounded : lb.backendCount ≤ MAX_BACKENDS) {s : Sys}
    (reach : ArrayReach (idleOn lb) s) : Within s := by
  induction reach with
  | refl => exact ⟨bounded, fun _ => trivial⟩
  | tail _ inside moved ih => exact within_step ih inside moved

theorem arrayReach_reach {s₀ s : Sys} (reach : ArrayReach s₀ s) : Reach s₀ s := by
  induction reach with
  | refl => exact .refl
  | tail _ _ moved ih => exact .tail ih moved

/-- The states of a run within the array from a state reached within it are reached within it. -/
theorem arrayReach_runTrace {s₀ s : Sys} {acts : List Action} {states : List Sys}
    (reach : ArrayReach s₀ s) (ran : runTrace s acts = some states)
    (inside : ∀ p ∈ states.zip acts, inArray p.1 p.2) : ∀ s' ∈ states, ArrayReach s₀ s' :=
  runTrace_keeps (fun s a => inArray s a) (fun reach inside moved => .tail reach inside moved)
    reach ran inside

/-- A state that passes `check` in a run from idle threads whose every step stays within the
array is reached within it. -/
theorem exists_arrayReach_of_run (lb : LbCore) (acts : List Action) (check : Sys → Bool)
    (found : ((runTrace (idleOn lb) acts).map fun states =>
      (states.zip acts).all (fun p => inArray p.1 p.2) && states.any check) = some true) :
    ∃ s, ArrayReach (idleOn lb) s ∧ check s = true := by
  cases ran : runTrace (idleOn lb) acts with
  | none => simp [ran] at found
  | some states =>
    rw [ran, Option.map_some', Option.some.injEq, Bool.and_eq_true] at found
    obtain ⟨s, mem, passes⟩ := List.any_eq_true.mp found.2
    exact ⟨s, arrayReach_runTrace .refl ran (List.all_eq_true.mp found.1) s mem, passes⟩

/-- The prefix in use ends in the array. -/
theorem inUse_within {s : Sys} (within : Within s) (holder : Option Nat) :
    (holderPc s.pcs holder).inUse s.core.backendCount ≤ MAX_BACKENDS := by
  have bounded := within.bounded
  cases holder with
  | none => exact bounded
  | some t =>
    have room := within.publishing t
    simp only [holderPc_some]
    cases here : s.pcs t <;> simp only [here, Pc.inUse, PublishesWithin] at room ⊢
    all_goals first | omega | (split <;> omega)

/-- The prefix in use, read off the holder: the count, or one off while the holder is between
its two writes; within the array, it ends in the array. -/
theorem layout_cases {s : Sys} {holder : Option Nat} (inv : LockInv s holder)
    (layout : Layout s holder) (within : Within s) :
    ∃ k ≤ MAX_BACKENDS, (∀ i, (s.core.backends i).isSome ↔ i < k) ∧
      (k = s.core.backendCount ∨
        (∃ t b c, s.pcs t = .addSecond b c true ∧ s.core.backendCount = c + 1 ∧ k = c) ∨
        (∃ t b c, s.pcs t = .addSecond b c false ∧ s.core.backendCount = c ∧ k = c + 1)) := by
  refine ⟨_, inUse_within within holder, layout, ?_⟩
  cases holder with
  | none => exact .inl rfl
  | some t =>
    have counted := inv.counted t
    simp only [holderPc_some]
    cases here : s.pcs t with
    | addSecond b c countFirst =>
      rw [here] at counted
      cases countFirst
      · exact .inr (.inr ⟨t, b, c, here, counted, rfl⟩)
      · exact .inr (.inl ⟨t, b, c, here, counted, rfl⟩)
    | _ => exact .inl rfl

/-- In every interleaving that stores nothing past the array, adds that overlap included,
`backends_lock` is set exactly while a thread is between its lock and its unlock, at most one
thread is, and a thread at its first write finds the count it read under the lock. -/
theorem spinlock_exclusive (lb : LbCore) (free : lb.backendsLock = false) (s : Sys)
    (reach : ArrayReach (idleOn lb) s) :
    (s.core.backendsLock = true ↔ ∃ t, (s.pcs t).holdsLock) ∧
    (∀ t t', (s.pcs t).holdsLock → (s.pcs t').holdsLock → t = t') ∧
    (∀ t b c countFirst, s.pcs t = .addFirst b c countFirst → s.core.backendCount = c) := by
  obtain ⟨holder, inv, -⟩ := lockInv_reach free (arrayReach_reach reach)
  refine ⟨?_, fun t t' holds holds' => ?_, fun t b c countFirst here => ?_⟩
  · rw [inv.flag]
    cases holder with
    | none => simp [inv.holds]
    | some t => exact ⟨fun _ => ⟨t, (inv.holds t).mpr rfl⟩, fun _ => rfl⟩
  · exact Option.some.inj (((inv.holds t).mp holds).symm.trans ((inv.holds t').mp holds'))
  · simpa [here, LockedCount] using inv.counted t

/-- Two adds that overlap on an empty core, and a round-robin select. The first add takes the
lock while the second waits for it, and writes the count first; the select reads the new count
and then the slot still NULL; the first add writes its slot and unlocks; the second takes the
lock and writes its slot first. -/
def addsBesideSelect : List Action :=
  [.start 0 (.addBackend (some ⟨[50], by decide⟩) 81 1),
    .start 1 (.addBackend (some ⟨[51], by decide⟩) 82 1), .start 2 .rrSelect,
    .run 0 false, .run 1 false, .run 0 true, .run 1 true, .run 0 true, .run 0 false,
    .run 2 false, .run 2 false, .run 2 false, .run 2 false, .run 2 false,
    .run 0 false, .run 0 false, .run 1 false, .run 1 false, .run 1 false, .run 1 false]

theorem spinlock_exclusive_sample :
    ∃ s, ArrayReach (idleOn sampleCore) s ∧ (s.pcs 1).adding ∧ (s.pcs 2).selecting ∧
      ∀ t, (s.pcs t).holdsLock → t = 0 := by
  obtain ⟨s, reach, found⟩ := exists_arrayReach_of_run sampleCore addsBesideSelect
    (fun s => (s.pcs 0).holdsLock && (s.pcs 1).adding && (s.pcs 2).selecting) (by decide)
  simp only [Bool.and_eq_true] at found
  exact ⟨s, reach, found.1.2, found.2,
    fun t holds => (spinlock_exclusive sampleCore rfl s reach).2.1 t 0 holds found.1.1⟩

/-- In every interleaving that stores nothing past the array, from a core whose slots in use
are `backends[0..backend_count)` within the array, the count stays within the array and the
slots in use are `backends[0..k)` with `k ≤ MAX_BACKENDS`: `k` is the count, or, while an add is
between its two writes, one less when it wrote the count first, one more when it wrote the slot
first. -/
theorem slots_in_use_prefix (lb : LbCore) (free : lb.backendsLock = false)
    (bounded : lb.backendCount ≤ MAX_BACKENDS)
    (dense : ∀ i, (lb.backends i).isSome ↔ i < lb.backendCount) (s : Sys)
    (reach : ArrayReach (idleOn lb) s) :
    s.core.backendCount ≤ MAX_BACKENDS ∧
    ∃ k ≤ MAX_BACKENDS, (∀ i, (s.core.backends i).isSome ↔ i < k) ∧
      (k = s.core.backendCount ∨
        (∃ t b c, s.pcs t = .addSecond b c true ∧ s.core.backendCount = c + 1 ∧ k = c) ∨
        (∃ t b c, s.pcs t = .addSecond b c false ∧ s.core.backendCount = c ∧ k = c + 1)) := by
  obtain ⟨holder, inv, layout⟩ := lockInv_reach free (arrayReach_reach reach)
  have within := arrayReach_within bounded reach
  exact ⟨within.bounded, layout_cases inv (layout dense) within⟩

theorem slots_in_use_prefix_sample :
    ∃ s, ArrayReach (idleOn sampleCore) s ∧ (s.pcs 2).selecting ∧
      ∃ k, (∀ i, (s.core.backends i).isSome ↔ i < k) ∧ k < s.core.backendCount := by
  obtain ⟨s, reach, found⟩ := exists_arrayReach_of_run sampleCore addsBesideSelect
    (fun s => s.core.backendCount == 1 && (s.core.backends 0).isNone && (s.pcs 2).selecting)
    (by decide)
  simp only [Bool.and_eq_true, beq_iff_eq, Option.isNone_iff_eq_none] at found
  obtain ⟨⟨counted, empty⟩, selecting⟩ := found
  obtain ⟨-, k, -, used, -⟩ := slots_in_use_prefix sampleCore rfl (by decide)
    (fun i => iff_of_false Bool.false_ne_true (Nat.not_lt_zero i)) s reach
  have none : ¬0 < k := fun inUse => by simpa [empty] using (used 0).mpr inUse
  exact ⟨s, reach, selecting, k, used, by omega⟩

/-- In every interleaving that stores nothing past the array, adds that overlap included, no
step lowers the count or empties a slot, and no step raises the count by more than one. -/
theorem registry_only_grows (lb : LbCore) (free : lb.backendsLock = false) (s : Sys)
    (reach : ArrayReach (idleOn lb) s) (a : Action) (s' : Sys) (moved : step s a = some s') :
    Grows s.core s'.core ∧ s'.core.backendCount ≤ s.core.backendCount + 1 := by
  obtain ⟨holder, inv, -⟩ := lockInv_reach free (arrayReach_reach reach)
  rcases step_cases moved with ⟨t, call, -, -, rfl⟩ |
    ⟨t, choice, core, pc, obs, -, stepped, rfl⟩ | ⟨i, b, b', -, rfl⟩
  · exact ⟨⟨le_rfl, fun _ => id⟩, Nat.le_succ _⟩
  · dsimp only
    have counted := inv.counted t
    rcases threadStep_lock stepped with ⟨-, -, -, count, slots⟩ | ⟨b, -, -, rfl, rfl⟩ |
      ⟨b, c, countFirst, here, rfl, rfl⟩ | ⟨b, c, countFirst, here, rfl, rfl⟩ | ⟨-, rfl, rfl⟩
    · exact ⟨⟨count.ge, by simp [slots]⟩, by omega⟩
    · exact ⟨⟨le_rfl, fun _ => id⟩, Nat.le_succ _⟩
    · simp only [here, LockedCount] at counted
      refine ⟨publish_grows _ b c countFirst (by omega), ?_⟩
      cases countFirst <;> simp [counted]
    · simp only [here, LockedCount] at counted
      refine ⟨publish_grows _ b c _ (by split at counted <;> omega), ?_⟩
      cases countFirst <;> simp [counted]
    · exact ⟨⟨le_rfl, fun _ => id⟩, Nat.le_succ _⟩
  · exact ⟨store_grows _ i _, Nat.le_succ _⟩

theorem registry_only_grows_sample :
    ∃ s s', ArrayReach (idleOn sampleCore) s ∧ step s (.run 0 false) = some s' ∧ (s.pcs 2).selecting ∧
      s.core.backendCount < s'.core.backendCount ∧ s'.core.backendCount ≤ s.core.backendCount + 1 := by
  obtain ⟨s, reach, found⟩ := exists_arrayReach_of_run sampleCore addsBesideSelect
    (fun s => (s.pcs 2).selecting &&
      (step s (.run 0 false)).any fun s' => s.core.backendCount < s'.core.backendCount) (by decide)
  simp only [Bool.and_eq_true] at found
  cases moved : step s (.run 0 false) with
  | none => simp [moved] at found
  | some s' =>
    simp only [moved, Option.any_some, decide_eq_true_eq] at found
    exact ⟨s, s', reach, moved, found.1, found.2,
      (registry_only_grows sampleCore rfl s reach (.run 0 false) s' moved).2⟩

theorem serialReach_reach {s₀ s : Sys} (reach : SerialReach s₀ s) : Reach s₀ s := by
  induction reach with
  | refl => exact .refl
  | tail _ _ moved ih => exact .tail ih moved

/-- With adds serialized, from a core whose slots in use are `backends[0..backend_count)`
within the array, the count stays within the array and no slot at or past `MAX_BACKENDS` is
ever written. -/
theorem serial_adds_within_array (lb : LbCore) (bounded : lb.backendCount ≤ MAX_BACKENDS)
    (free : lb.backendsLock = false) (dense : ∀ i, (lb.backends i).isSome ↔ i < lb.backendCount)
    (s : Sys) (reach : SerialReach (idleOn lb) s) :
    s.core.backendCount ≤ MAX_BACKENDS ∧ ∀ i, MAX_BACKENDS ≤ i → s.core.backends i = none := by
  have inv := inv_reach reach (inv_idleOn lb bounded)
  obtain ⟨holder, lock, layout⟩ := lockInv_reach free (serialReach_reach reach)
  obtain ⟨k, within, used, -⟩ := layout_cases lock (layout dense) (within_of_inv inv)
  refine ⟨inv.bounded, fun i past => ?_⟩
  cases slot : s.core.backends i with
  | none => rfl
  | some b =>
    have := (used i).mp (by simp [slot])
    omega

theorem serial_adds_within_array_sample :
    ∃ s, SerialReach (idleOn almostFull) s ∧ s.core.backendCount = MAX_BACKENDS ∧
      (s.pcs 1).selecting ∧ s.core.backends MAX_BACKENDS = none := by
  obtain ⟨s, reach, found⟩ := exists_serialReach_of_run almostFull addBesideSelect
    (fun s => s.core.backendCount == MAX_BACKENDS && (s.pcs 1).selecting) (by decide) (by decide)
  simp only [Bool.and_eq_true, beq_iff_eq] at found
  exact ⟨s, reach, found.1, found.2, (serial_adds_within_array almostFull (by decide) rfl
    (fun i => by simp only [almostFull, decide_eq_true_eq]; split <;> simp [*]) s reach).2
    MAX_BACKENDS le_rfl⟩

/-- In every interleaving that stores nothing past the array, from a core whose slots in use
are `backends[0..backend_count)` within the array, a slot below the count is NULL exactly when
it is the slot `backend_count - 1` of an add whose `backends[backend_count++] = b` wrote the
count first and has yet to write the slot. A select that reads the new count may then find that
slot NULL. -/
theorem null_slot_below_count (lb : LbCore) (free : lb.backendsLock = false)
    (bounded : lb.backendCount ≤ MAX_BACKENDS)
    (dense : ∀ i, (lb.backends i).isSome ↔ i < lb.backendCount) (s : Sys)
    (reach : ArrayReach (idleOn lb) s) (i : Nat) (below : i < s.core.backendCount) :
    s.core.backends i = none ↔
      ∃ t b, s.pcs t = .addSecond b i true ∧ s.core.backendCount = i + 1 := by
  obtain ⟨holder, inv, layout⟩ := lockInv_reach free (arrayReach_reach reach)
  constructor
  · intro empty
    obtain ⟨k, -, used, which⟩ := layout_cases inv (layout dense) (arrayReach_within bounded reach)
    have unused : ¬i < k := fun inUse => by simpa [empty] using (used i).mpr inUse
    rcases which with rfl | ⟨t, b, c, here, counted, rfl⟩ | ⟨t, b, c, -, counted, rfl⟩
    · exact absurd below unused
    · obtain rfl : k = i := by omega
      exact ⟨t, b, here, counted⟩
    · omega
  · rintro ⟨t, b, here, -⟩
    obtain rfl : holder = some t := (inv.holds t).mp (by simp [here, Pc.holdsLock])
    have layout := layout dense
    simp only [Layout, holderPc_some, here, Pc.inUse, if_true] at layout
    exact Option.not_isSome_iff_eq_none.mp fun present => Nat.lt_irrefl i ((layout i).mp present)

theorem null_slot_below_count_sample :
    ∃ s, ArrayReach (idleOn sampleCore) s ∧
      (∃ t b, s.pcs t = .addSecond b 0 true ∧ s.core.backendCount = 1) ∧
      Obs.count 1 ∈ s.logs 2 ∧ Obs.slot 0 false ∈ s.logs 2 := by
  obtain ⟨s, reach, found⟩ := exists_arrayReach_of_run sampleCore addsBesideSelect
    (fun s => s.core.backendCount == 1 && (s.core.backends 0).isNone &&
      decide (Obs.count 1 ∈ s.logs 2) && decide (Obs.slot 0 false ∈ s.logs 2)) (by decide)
  simp only [Bool.and_eq_true, beq_iff_eq, Option.isNone_iff_eq_none, decide_eq_true_eq] at found
  obtain ⟨⟨⟨counted, empty⟩, read⟩, slot⟩ := found
  exact ⟨s, reach, (null_slot_below_count sampleCore rfl (by decide)
    (fun i => iff_of_false Bool.false_ne_true (Nat.not_lt_zero i)) s reach 0 (by omega)).mp empty,
    read, slot⟩

end UltraBalancer.Concurrent
