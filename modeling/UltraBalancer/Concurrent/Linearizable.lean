import UltraBalancer.Concurrent.Lock
import UltraBalancer.LeastConn
import UltraBalancer.RoundRobin

/-!
The least-connections select against adds in flight. The scan reads `backend_count` before
each slot, takes no lock, and adds that overlap in any way publish while it runs. When no
environment store happens and every add's `backends[backend_count++] = b` writes the slot
before the count, no step changes a slot below the count, so what the scan has read of those
slots stays the core's. The select then returns what the sequential `strat_leastconn_select`
returns on the state in which it reads `backend_count` for the last time: that read is its
linearization point. With the count written first, the torn slot of `null_slot_below_count`
can be read as NULL and filled later, and this fails.
-/

namespace UltraBalancer.Concurrent
open LbStatus BackendState Lifecycle LeastConn RoundRobin

/-- Whether a step may occur in a run in which the environment stores nothing and every add
writes its slot before its count. -/
def slotFirst (s : Sys) : Action → Bool
  | .start _ _ => true
  | .run t choice =>
    match s.pcs t with
    | .addLock _ => !choice
    | _ => true
  | .mark .. | .setConns .. => false

/-- The states such runs reach from `s₀`. -/
inductive SlotFirstReach (s₀ : Sys) : Sys → Prop
  | refl : SlotFirstReach s₀ s₀
  | tail {s s' : Sys} {a : Action} : SlotFirstReach s₀ s → slotFirst s a → step s a = some s' →
      SlotFirstReach s₀ s'

theorem slotFirstReach_reach {s₀ s : Sys} (reach : SlotFirstReach s₀ s) : Reach s₀ s := by
  induction reach with
  | refl => exact .refl
  | tail _ _ moved ih => exact .tail ih moved

theorem slotFirst_run {s : Sys} {t : Nat} {choice : Bool} (guard : slotFirst s (.run t choice))
    (b : Backend) (here : s.pcs t = .addLock b) : choice = false := by
  simpa [slotFirst, here] using guard

/-- The states of a run of such steps from a state such runs reach. -/
theorem slotFirstReach_runTrace {s₀ : Sys} : ∀ {acts : List Action} {s : Sys} {states : List Sys},
    SlotFirstReach s₀ s → runTrace s acts = some states →
    (∀ p ∈ states.zip acts, slotFirst p.1 p.2) → ∀ s' ∈ states, SlotFirstReach s₀ s' :=
  runTrace_keeps (fun s a => slotFirst s a) fun reach guard moved => .tail reach guard moved

/-- The scan's running `(sel, minc)` after the slots below `i`. -/
def scanTo (lb : LbCore) (i : Nat) : Option Nat × UInt32 :=
  (List.range i).foldl (leastconnVisit lb) (none, UINT32_MAX)

theorem scanTo_succ (lb : LbCore) (i : Nat) :
    scanTo lb (i + 1) = leastconnVisit lb (scanTo lb i) i := by
  simp only [scanTo, List.range_succ, List.foldl_append, List.foldl_cons, List.foldl_nil]

/-- From `lb` to `lb'` the count has not dropped and no slot below it has changed. -/
def Settled (lb lb' : LbCore) : Prop :=
  lb.backendCount ≤ lb'.backendCount ∧ ∀ j < lb.backendCount, lb'.backends j = lb.backends j

theorem scanTo_settled {lb lb' : LbCore} (settled : Settled lb lb') :
    ∀ {i}, i ≤ lb.backendCount → scanTo lb' i = scanTo lb i
  | 0, _ => rfl
  | i + 1, within => by
    rw [scanTo_succ, scanTo_succ, scanTo_settled settled (Nat.le_of_succ_le within)]
    unfold leastconnVisit
    rw [settled.2 i within]

/-- What a thread inside the scan has read, as a fact of the current core: the slots below
`i` give its `(sel, minc)`; slot `i` lies below the count once tested, and holds an UP backend
once its state is read. -/
def ScanAt (lb : LbCore) : Pc → Prop
  | .lcTest i sel minc => i ≤ lb.backendCount ∧ (sel, minc) = scanTo lb i
  | .lcSlot i sel minc | .lcState i sel minc => i < lb.backendCount ∧ (sel, minc) = scanTo lb i
  | .lcConns i sel minc => i < lb.backendCount ∧ (sel, minc) = scanTo lb i ∧
      ∃ b, lb.backends i = some b ∧ b.state = BACKEND_UP
  | _ => True

theorem scanAt_settled {lb lb' : LbCore} {pc : Pc} (settled : Settled lb lb') (scan : ScanAt lb pc) :
    ScanAt lb' pc := by
  cases pc with
  | lcTest i sel minc =>
    exact ⟨scan.1.trans settled.1, scan.2.trans (scanTo_settled settled scan.1).symm⟩
  | lcSlot i sel minc | lcState i sel minc =>
    exact ⟨Nat.lt_of_lt_of_le scan.1 settled.1,
      scan.2.trans (scanTo_settled settled (Nat.le_of_lt scan.1)).symm⟩
  | lcConns i sel minc =>
    obtain ⟨below, acc, b, slot, up⟩ := scan
    exact ⟨Nat.lt_of_lt_of_le below settled.1,
      acc.trans (scanTo_settled settled (Nat.le_of_lt below)).symm, b, (settled.2 i below).trans slot, up⟩
  | _ => trivial

theorem scanAt_begin (lb : LbCore) (call : Call) : ScanAt lb call.begin := by
  cases call with
  | addBackend host port weight =>
    cases host with
    | none => trivial
    | some host =>
      show ScanAt lb (if port = 0 then _ else _)
      split <;> trivial
  | rrSelect => trivial
  | leastconnSelect => exact ⟨Nat.zero_le _, rfl⟩

/-- A thread's own step keeps what it has read true of the core. -/
theorem scanAt_step {lb lb' : LbCore} {choice : Bool} {pc pc' : Pc} {obs : List Obs}
    (scan : ScanAt lb pc) (moved : threadStep lb choice pc = some (lb', pc', obs)) :
    ScanAt lb' pc' := by
  cases pc with
  | lcTest i sel minc =>
    cases moved
    split
    · next below => exact ⟨below, scan.2⟩
    · trivial
  | lcSlot i sel minc =>
    obtain ⟨below, acc⟩ := scan
    simp only [threadStep] at moved
    split at moved
    · cases moved; trivial
    · cases moved
      split
      · exact ⟨below, acc⟩
      · next empty =>
        refine ⟨below, ?_⟩
        rw [scanTo_succ, ← acc, leastconnVisit, Option.not_isSome_iff_eq_none.mp empty]
  | lcState i sel minc =>
    obtain ⟨below, acc⟩ := scan
    simp only [threadStep] at moved
    split at moved
    · next b slot =>
      cases moved
      split
      · next up => exact ⟨below, acc, b, slot, up⟩
      · next down =>
        refine ⟨below, ?_⟩
        rw [scanTo_succ, ← acc, leastconnVisit, slot]
        simp only [if_neg down]
    · cases moved; trivial
  | lcConns i sel minc =>
    obtain ⟨below, acc, b, slot, up⟩ := scan
    simp only [threadStep, slot] at moved
    cases moved
    have visit : scanTo lb (i + 1) =
        if b.activeConns < minc then (some i, b.activeConns) else (sel, minc) := by
      rw [scanTo_succ, ← acc, leastconnVisit, slot]
      simp only [if_pos up]
    split
    · next lower => exact ⟨below, by rw [visit, if_pos lower]⟩
    · next higher => exact ⟨below, by rw [visit, if_neg higher]⟩
  | addLock b =>
    simp only [threadStep] at moved
    split at moved <;> cases moved; trivial
  | rrSlot tries idx =>
    simp only [threadStep] at moved
    split at moved <;> cases moved <;> (try split) <;> trivial
  | rrState tries idx =>
    simp only [threadStep] at moved
    split at moved <;> cases moved <;> (try split) <;> trivial
  | _ => cases moved <;> (try split) <;> trivial

/-- A step with its slot written first keeps the core settled: the slot an add stores is at
the count, and the count it writes is one more. -/
theorem threadStep_settled {lb lb' : LbCore} {choice : Bool} {pc pc' : Pc} {obs : List Obs}
    (counted : LockedCount lb.backendCount pc)
    (slotFirst : ∀ b c, pc ≠ .addFirst b c true ∧ pc ≠ .addSecond b c true)
    (moved : threadStep lb choice pc = some (lb', pc', obs)) : Settled lb lb' := by
  rcases threadStep_lock moved with ⟨-, -, -, count, slots⟩ | ⟨b, -, -, rfl, -⟩ |
    ⟨b, c, countFirst, rfl, rfl, -⟩ | ⟨b, c, countFirst, rfl, rfl, -⟩ | ⟨-, rfl, -⟩
  · exact ⟨count.ge, fun j _ => by rw [slots]⟩
  · exact ⟨le_rfl, fun _ _ => rfl⟩
  · cases countFirst
    · simp only [LockedCount] at counted
      exact ⟨le_rfl, fun j below => by
        simp [publish, Function.update_noteq (show j ≠ c by omega)]⟩
    · exact absurd rfl (slotFirst b c).1
  · cases countFirst
    · simp only [LockedCount, Bool.false_eq_true, if_false] at counted
      exact ⟨by simp [publish, counted], fun _ _ => rfl⟩
    · exact absurd rfl (slotFirst b c).2
  · exact ⟨le_rfl, fun _ _ => rfl⟩

/-- A thread outside the lock is at neither write. -/
theorem writesNothing_of_free {pc : Pc} (free : pc.holdsLock = false) :
    ∀ b c, pc ≠ .addFirst b c true ∧ pc ≠ .addSecond b c true := fun _ _ =>
  ⟨fun inside => by simp [inside, Pc.holdsLock] at free,
    fun inside => by simp [inside, Pc.holdsLock] at free⟩

/-- Once its slot is chosen first, an add keeps it so. -/
theorem threadStep_slotFirst {lb lb' : LbCore} {choice : Bool} {pc pc' : Pc} {obs : List Obs}
    (guard : ∀ b, pc = .addLock b → choice = false)
    (slotFirst : ∀ b c, pc ≠ .addFirst b c true ∧ pc ≠ .addSecond b c true)
    (moved : threadStep lb choice pc = some (lb', pc', obs)) :
    ∀ b c, pc' ≠ .addFirst b c true ∧ pc' ≠ .addSecond b c true := by
  rcases threadStep_lock moved with ⟨-, outside, -⟩ | ⟨b, rfl, -, -, rfl⟩ |
    ⟨b, c, countFirst, rfl, -, rfl⟩ | ⟨-, -, -, -, -, rfl⟩ | ⟨-, -, rfl⟩
  · exact writesNothing_of_free outside
  · rw [guard b rfl]
    exact fun _ _ => ⟨nofun, nofun⟩
  · refine fun b' c' => ⟨nofun, fun same => ?_⟩
    cases same
    exact (slotFirst b c).1 rfl
  all_goals exact fun _ _ => ⟨nofun, nofun⟩

/-- What holds in every state of such a run: no add writes its count first, and every thread
inside the scan has read what the current core holds. -/
structure LinInv (s : Sys) : Prop where
  slotFirst : ∀ t b c, s.pcs t ≠ .addFirst b c true ∧ s.pcs t ≠ .addSecond b c true
  scans : ∀ t, ScanAt s.core (s.pcs t)

/-- A thread moving to a position at neither count-first write, and whose reads hold of the new
core, keeps the invariant when the core has settled. -/
theorem LinInv.update {s : Sys} (inv : LinInv s) {core : LbCore} (settled : Settled s.core core)
    {t : Nat} {pc : Pc} (first : ∀ b c, pc ≠ .addFirst b c true ∧ pc ≠ .addSecond b c true)
    (scan : ScanAt core pc) (logs : Nat → List Obs) :
    LinInv ⟨core, Function.update s.pcs t pc, logs⟩ :=
  ⟨(Function.forall_update_iff _ fun _ (pc : Pc) =>
      ∀ b c, pc ≠ .addFirst b c true ∧ pc ≠ .addSecond b c true).mpr
      ⟨first, fun u _ => inv.slotFirst u⟩,
    (Function.forall_update_iff _ fun _ (pc : Pc) => ScanAt core pc).mpr
      ⟨scan, fun u _ => scanAt_settled settled (inv.scans u)⟩⟩

theorem linInv_step {s s' : Sys} {holder : Option Nat} {a : Action} (lock : LockInv s holder)
    (inv : LinInv s) (guard : slotFirst s a) (moved : step s a = some s') : LinInv s' := by
  cases a with
  | start t call =>
    obtain ⟨-, rfl⟩ := step_start moved
    exact inv.update ⟨le_rfl, fun _ _ => rfl⟩ (writesNothing_of_free (begin_holdsLock call))
      (scanAt_begin s.core call) _
  | run t choice =>
    obtain ⟨core, pc, obs, stepped, rfl⟩ := step_run moved
    exact inv.update (threadStep_settled (lock.counted t) (inv.slotFirst t) stepped)
      (threadStep_slotFirst (slotFirst_run guard) (inv.slotFirst t) stepped)
      (scanAt_step (inv.scans t) stepped) _
  | mark | setConns => exact absurd guard (by simp [slotFirst])

theorem linInv_reach {lb : LbCore} (free : lb.backendsLock = false) {s : Sys}
    (reach : SlotFirstReach (idleOn lb) s) : LinInv s := by
  induction reach with
  | refl => exact ⟨fun _ _ _ => ⟨nofun, nofun⟩, fun _ => trivial⟩
  | tail prev guard moved ih =>
    obtain ⟨holder, lock, -⟩ := lockInv_reach free (slotFirstReach_reach prev)
    exact linInv_step lock ih guard moved

/-- Against adds that overlap in any way, each writing its slot before the count, and with no
environment store, the step in which a least-connections select reads `backend_count` for the
last time returns what the sequential `strat_leastconn_select` returns on the state in which
it takes that step. -/
theorem leastconn_linearizable (lb : LbCore) (free : lb.backendsLock = false) (s : Sys)
    (reach : SlotFirstReach (idleOn lb) s) (t i : Nat) (sel : Option Nat) (minc : UInt32)
    (scanning : s.pcs t = .lcTest i sel minc) (last : s.core.backendCount ≤ i) (choice : Bool) :
    threadStep s.core choice (s.pcs t) =
      some (s.core, .selectDone (stratLeastconnSelect s.core), [.count s.core.backendCount]) := by
  have scan := (linInv_reach free reach).scans t
  rw [scanning] at scan ⊢
  obtain ⟨within, acc⟩ := scan
  obtain rfl : i = s.core.backendCount := Nat.le_antisymm within last
  simp only [threadStep, lt_irrefl, if_false, stratLeastconnSelect]
  rw [show sel = (scanTo s.core s.core.backendCount).1 from congrArg Prod.fst acc]
  rfl

/-- A least-connections select over three UP backends during which an add publishes a fourth,
slot first: the select reads the new count, scans the new slot and stops at four. -/
def scanDuringAdd : List Action :=
  [.start 1 .leastconnSelect] ++ List.replicate 12 (.run 1 false) ++
    [.start 0 (.addBackend (some ⟨[50], by decide⟩) 81 1), .run 0 false, .run 0 true, .run 0 false,
      .run 0 false, .run 0 false, .run 0 false] ++ List.replicate 3 (.run 1 false)

theorem leastconn_linearizable_sample :
    ∃ s, SlotFirstReach (idleOn (threeSlots 0 fun _ => true)) s ∧ s.core.backendCount = 4 ∧
      threadStep s.core false (s.pcs 1) = some (s.core, .selectDone (some 0), [.count 4]) := by
  have ran : ((runTrace (idleOn (threeSlots 0 fun _ => true)) scanDuringAdd).map fun states =>
      (states.zip scanDuringAdd).all (fun p => slotFirst p.1 p.2) &&
        states.getLast?.any fun s => s.core.backendCount == 4 &&
          s.pcs 1 == .lcTest 4 (some 0) 0 && stratLeastconnSelect s.core == some 0) = some true := by
    decide
  cases trace : runTrace (idleOn (threeSlots 0 fun _ => true)) scanDuringAdd with
  | none => simp [trace] at ran
  | some states =>
    cases final : states.getLast? with
    | none => simp [trace, final] at ran
    | some s =>
      simp only [trace, final, Option.map_some', Option.any_some, Option.some.injEq,
        Bool.and_eq_true, List.all_eq_true, beq_iff_eq] at ran
      obtain ⟨guards, ⟨counted, scanning⟩, answer⟩ := ran
      have reach := slotFirstReach_runTrace .refl trace guards s (List.mem_of_mem_getLast? final)
      refine ⟨s, reach, counted, ?_⟩
      have step := leastconn_linearizable _ rfl s reach 1 4 (some 0) 0 scanning (by omega) false
      rwa [answer, counted] at step

end UltraBalancer.Concurrent
