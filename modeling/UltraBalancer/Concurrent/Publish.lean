import UltraBalancer.Concurrent.Lock

/-!
What overlapping adds publish. `backends_lock` makes each `backends[backend_count++] = b` one
critical section, so whatever the interleaving, the adds publish in the order they take the
lock: once no add is inside its critical section, the core holds the records it held before,
then the added records in lock order, and the count has grown by their number. No add's
record is lost, written over or published twice; the capacity check made before the lock is
what overlapping adds break (`unlocked_check_overflows`), not the publication.
-/

namespace UltraBalancer.Concurrent
open LbStatus Lifecycle Registry

/-- Whether an action is a thread's: the environment stores to no backend. -/
def storesNothing : Action → Bool
  | .mark .. | .setConns .. => false
  | .start .. | .run .. => true

/-- The record a thread at `pc` takes `backends_lock` with in its step. -/
def Pc.lockRecord : Pc → List Backend
  | .addLock b => [b]
  | _ => []

/-- The record an action takes the lock with. -/
def lockEvent (s : Sys) : Action → List Backend
  | .run t _ => (s.pcs t).lockRecord
  | _ => []

/-- The records with which the adds of a run take the lock, in order, up to the first action
that cannot happen. -/
def lockOrder (s : Sys) : List Action → List Backend
  | [] => []
  | a :: rest =>
    match step s a with
    | some s' => lockEvent s a ++ lockOrder s' rest
    | none => []

/-- The count and the slots while the lock's holder is at `pc`, once the records `bs` have
taken the lock, the holder's last: all of `bs` outside a critical section; all but the
holder's record at its first write; between its two writes, its count or its slot. -/
def Committed (bs : List Backend) (count : Nat) (slots : Nat → Option Backend) : Pc → Prop
  | .addFirst b _ _ => ∃ done, bs = done ++ [b] ∧ count = done.length ∧ ∀ i, slots i = done[i]?
  | .addSecond b _ countFirst => ∃ done, bs = done ++ [b] ∧
      count = done.length + (if countFirst then 1 else 0) ∧
      ∀ i, slots i = (if countFirst then done else bs)[i]?
  | _ => count = bs.length ∧ ∀ i, slots i = bs[i]?

/-- The lock in `s`, and the core holding the records `bs` as its holder's position says. -/
def PubInv (bs : List Backend) (s : Sys) : Prop :=
  ∃ holder, LockInv s holder ∧
    Committed bs s.core.backendCount s.core.backends (holderPc s.pcs holder)

/-- Storing `b` in the slot after the records `done` gives the slots of `done ++ [b]`. -/
theorem update_push {slots : Nat → Option Backend} {done : List Backend} (b : Backend)
    (holds : ∀ i, slots i = done[i]?) (i : Nat) :
    Function.update slots done.length (some b) i = (done ++ [b])[i]? := by
  rcases Nat.lt_trichotomy i done.length with below | rfl | above
  · rw [Function.update_noteq (by omega), holds, List.getElem?_append_left below]
  · simp
  · rw [Function.update_noteq (by omega), holds, List.getElem?_eq_none (by omega),
      List.getElem?_eq_none (by simp; omega)]

theorem holderPc_of_holds {s : Sys} {holder : Option Nat} (inv : LockInv s holder) (t : Nat)
    (holds : (s.pcs t).holdsLock) : holderPc s.pcs holder = s.pcs t := by
  rw [(inv.holds t).mp holds, holderPc_some]

theorem holderPc_of_free {s : Sys} {holder : Option Nat} (inv : LockInv s holder)
    (free : ∀ t, (s.pcs t).holdsLock = false) : holderPc s.pcs holder = .idle := by
  cases holder with
  | none => rfl
  | some t => simpa [free t] using (inv.holds t).mpr rfl

/-- A step of a thread outside the lock leaves the holder where it was. -/
theorem holderPc_outside {s s' : Sys} {holder holder' : Option Nat} {t : Nat} {pc : Pc}
    (inv : LockInv s holder) (inv' : LockInv s' holder') (moves : s'.pcs = Function.update s.pcs t pc)
    (free : (s.pcs t).holdsLock = false) (free' : pc.holdsLock = false) :
    holderPc s'.pcs holder' = holderPc s.pcs holder := by
  cases holder with
  | some u =>
    have holds : (s.pcs u).holdsLock := (inv.holds u).mpr rfl
    have other : u ≠ t := fun same => by simp [same, free] at holds
    have still : s'.pcs u = s.pcs u := by rw [moves, Function.update_noteq other]
    rw [holderPc_of_holds inv' u (still ▸ holds), still, holderPc_some]
  | none =>
    refine holderPc_of_free inv' fun u => ?_
    rw [moves, Function.update_apply]
    split
    · exact free'
    · exact Bool.eq_false_iff.mpr fun holds => by simpa using (inv.holds u).mp holds

/-- A thread that takes the lock leaves the lock at the next position. -/
theorem lockRecord_outside {lb lb' : LbCore} {choice : Bool} {pc pc' : Pc} {obs : List Obs}
    (moved : threadStep lb choice pc = some (lb', pc', obs)) (free' : pc'.holdsLock = false) :
    pc.lockRecord = [] := by
  cases pc with
  | addLock b =>
    simp only [threadStep] at moved
    split at moved
    · cases moved
    · cases moved
      cases free'
  | _ => rfl

/-- A step of a thread keeps what the core holds: a thread taking the lock adds its record,
and the holder's two writes and its unlock move the core along `Committed`. -/
theorem committed_run {s : Sys} {holder holder' : Option Nat} {bs : List Backend} {t : Nat}
    {choice : Bool} {core : LbCore} {pc : Pc} {obs : List Obs} {logs : Nat → List Obs}
    (inv : LockInv s holder)
    (committed : Committed bs s.core.backendCount s.core.backends (holderPc s.pcs holder))
    (moved : threadStep s.core choice (s.pcs t) = some (core, pc, obs))
    (inv' : LockInv ⟨core, Function.update s.pcs t pc, logs⟩ holder') :
    Committed (bs ++ (s.pcs t).lockRecord) core.backendCount core.backends
      (holderPc (Function.update s.pcs t pc) holder') := by
  have holdsNow : pc.holdsLock → holderPc (Function.update s.pcs t pc) holder' = pc := fun holds =>
    (holderPc_of_holds inv' t (by simpa using holds)).trans (Function.update_same _ _ _)
  rcases threadStep_lock moved with ⟨free, free', -, count, slots⟩ |
    ⟨b, here, unlocked, rfl, rfl⟩ | ⟨b, c, countFirst, here, rfl, rfl⟩ |
    ⟨b, c, countFirst, here, rfl, rfl⟩ | ⟨here, rfl, rfl⟩
  case inl =>
    rw [holderPc_outside inv inv' rfl free free', lockRecord_outside moved free', List.append_nil,
      count, slots]
    exact committed
  case inr.inl =>
    obtain rfl : holder = none := Option.not_isSome_iff_eq_none.mp (inv.flag ▸ by simpa using unlocked)
    rw [holdsNow rfl, here]
    exact ⟨bs, rfl, committed⟩
  case inr.inr.inl =>
    have counted : s.core.backendCount = c := by simpa [here, LockedCount] using inv.counted t
    rw [holderPc_of_holds inv t (by simp [here, Pc.holdsLock]), here] at committed
    obtain ⟨done, rfl, count, slots⟩ := committed
    rw [holdsNow rfl, here]
    refine ⟨done, List.append_nil _, ?_⟩
    cases countFirst
    · exact ⟨count, fun i => by simpa [publish, ← counted, count] using update_push b slots i⟩
    · exact ⟨by simp [publish, ← counted, count], slots⟩
  case inr.inr.inr.inl =>
    have counted : s.core.backendCount = if countFirst then c + 1 else c := by
      simpa [here, LockedCount] using inv.counted t
    rw [holderPc_of_holds inv t (by simp [here, Pc.holdsLock]), here] at committed
    obtain ⟨done, rfl, count, slots⟩ := committed
    rw [holdsNow rfl, here]
    simp only [Pc.lockRecord, List.append_nil, Committed]
    cases countFirst
    · simp only [Bool.false_eq_true, if_false, Nat.add_zero] at counted count slots
      exact ⟨by simp [publish, ← counted, count], by simpa [publish] using slots⟩
    · simp only [if_true] at counted count slots
      have stored : c = done.length := by omega
      exact ⟨by simp [publish, count], fun i => by simpa [publish, stored] using update_push b slots i⟩
  case inr.inr.inr.inr =>
    rw [holderPc_of_holds inv t (by simp [here, Pc.holdsLock]), here] at committed
    rw [holderPc_of_free inv' fun u => ?_, here]
    · simpa only [Pc.lockRecord, List.append_nil] using committed
    · dsimp only
      rw [Function.update_apply]
      split
      · rfl
      · next other =>
        exact Bool.eq_false_iff.mpr fun holds => other (Option.some.inj
          (((inv.holds u).mp holds).symm.trans ((inv.holds t).mp (by simp [here, Pc.holdsLock]))))

/-- Every step of a thread keeps the invariant, the records growing by the one that took the
lock. -/
theorem pubInv_step {bs : List Backend} {s s' : Sys} {a : Action} (inv : PubInv bs s)
    (only : storesNothing a) (moved : step s a = some s') : PubInv (bs ++ lockEvent s a) s' := by
  obtain ⟨holder, lock, committed⟩ := inv
  cases a with
  | start t call =>
    obtain ⟨returned, rfl⟩ := step_start moved
    have notMine : holder ≠ some t := fun mine => by
      simpa [returned_holdsLock returned] using (lock.holds t).mpr mine
    refine ⟨holder, (lockInv_start lock returned).1, ?_⟩
    rw [holderPc_update _ notMine]
    simpa only [lockEvent, List.append_nil] using committed
  | run t choice =>
    obtain ⟨core, pc, obs, stepped, rfl⟩ := step_run moved
    obtain ⟨holder', lock', -⟩ := lockInv_run lock stepped
    exact ⟨holder', lock', committed_run lock committed stepped lock'⟩
  | mark | setConns => cases only

/-- Over a run of thread actions, the invariant holds at the end, with the records that took the
lock during the run added in order. -/
theorem pubInv_runTrace (acts : List Action) (only : ∀ a ∈ acts, storesNothing a) :
    ∀ (bs : List Backend) (s : Sys) (states : List Sys), PubInv bs s →
      runTrace s acts = some states → ∀ last ∈ states.getLast?, PubInv (bs ++ lockOrder s acts) last := by
  induction acts with
  | nil =>
    intro bs s states inv ran last final
    cases ran
    cases final
    simpa [lockOrder] using inv
  | cons a rest ih =>
    intro bs s states inv ran last final
    obtain ⟨s', later, stepped, ranLater, rfl⟩ := runTrace_cons ran
    obtain ⟨next, rest', rfl⟩ := List.exists_cons_of_ne_nil (List.ne_nil_of_mem (runTrace_head ranLater))
    rw [List.getLast?_cons_cons] at final
    simpa only [lockOrder, stepped, List.append_assoc] using
      ih (fun b mem => only b (List.mem_cons_of_mem a mem)) _ s' _
        (pubInv_step inv (only a (List.mem_cons_self a rest)) stepped) ranLater last final

/-- In every interleaving of adds, overlapping ones included, and selects that stores nothing
past the array, from a core with its lock free that holds the records `init` within the array:
whenever `backends_lock` is free, the core holds `init` followed by the records of the adds in
the order they took the lock, its count their number, at most `MAX_BACKENDS`, and every later
slot NULL, and so its registry is that list. -/
theorem adds_publish_in_lock_order (lb : LbCore) (free : lb.backendsLock = false)
    (init : List Backend) (holds : Holds lb init) (bounded : init.length ≤ MAX_BACKENDS)
    (acts : List Action) (only : ∀ a ∈ acts, storesNothing a) (states : List Sys)
    (ran : runTrace (idleOn lb) acts = some states) (inside : ∀ p ∈ states.zip acts, inArray p.1 p.2)
    (last : Sys) (final : last ∈ states.getLast?) (unlocked : last.core.backendsLock = false) :
    Holds last.core (init ++ lockOrder (idleOn lb) acts) ∧
      registry last.core = (init ++ lockOrder (idleOn lb) acts).map some ∧
      (init ++ lockOrder (idleOn lb) acts).length ≤ MAX_BACKENDS := by
  obtain ⟨holder, lock, committed⟩ := pubInv_runTrace acts only init (idleOn lb) states
    ⟨none, ⟨fun _ => by simp [idleOn, Pc.holdsLock], free, fun _ => trivial⟩, holds⟩ ran last final
  obtain rfl : holder = none := Option.not_isSome_iff_eq_none.mp (lock.flag ▸ by simpa using unlocked)
  have within := runTrace_keeps (fun s a => inArray s a) within_step
    (⟨holds.1 ▸ bounded, fun _ => trivial⟩ : Within (idleOn lb)) ran inside last
    (List.mem_of_getLast?_eq_some final)
  exact ⟨committed, registry_of_holds committed, committed.1 ▸ within.bounded⟩

/-- Two overlapping adds on an empty core: the second to start takes the lock first and writes
its slot first; the first then writes its count first. -/
def lockSwap : List Action :=
  [.start 0 (.addBackend (some ⟨[50], by decide⟩) 81 1),
    .start 1 (.addBackend (some ⟨[51], by decide⟩) 82 1),
    .run 0 false, .run 1 false, .run 0 true, .run 1 true,
    .run 1 false, .run 1 false, .run 1 false, .run 1 false,
    .run 0 true, .run 0 false, .run 0 false, .run 0 false]

theorem adds_publish_in_lock_order_sample :
    ∃ states, runTrace (idleOn sampleCore) lockSwap = some states ∧ ∃ last ∈ states.getLast?,
      registry last.core = [some (newBackend ⟨[51], by decide⟩ 82 1),
        some (newBackend ⟨[50], by decide⟩ 81 1)] := by
  have freed : ((runTrace (idleOn sampleCore) lockSwap).map fun states : List Sys =>
      (states.zip lockSwap).all (fun p => inArray p.1 p.2) &&
        states.getLast?.any fun last : Sys => !last.core.backendsLock) = some true := by decide
  cases ran : runTrace (idleOn sampleCore) lockSwap with
  | none => simp [ran] at freed
  | some states =>
    cases final : states.getLast? with
    | none => simp [ran, final] at freed
    | some last =>
      simp only [ran, final, Option.map_some', Option.any_some, Option.some.injEq,
        Bool.and_eq_true, List.all_eq_true, Bool.not_eq_true'] at freed
      refine ⟨states, rfl, last, final, ?_⟩
      rw [(adds_publish_in_lock_order sampleCore rfl [] (holds_created rfl fun _ => rfl) (by decide)
        lockSwap (by decide) states ran freed.1 last final freed.2).2.1]
      rfl

end UltraBalancer.Concurrent
