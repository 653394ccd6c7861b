import UltraBalancer.Concurrent.Serial
import UltraBalancer.LeastConn

/-!
One `strat_leastconn_select` while the environment changes backends' `state` and
`active_conns`. The scan loads a backend's state, then its counter, then the next backend,
each at its own instant. A backend least loaded at every instant can therefore lose: another
backend read UP may go down and have its counter reset before the scan loads the counter.
What the scan guarantees is the choice of a backend kept apart from the others by one bound
over the whole call.
-/

namespace UltraBalancer.Concurrent
open LbStatus BackendState LeastConn Lifecycle

/-- An action of the call of thread `t` or of the environment: no other thread moves and no
call starts. -/
def CallAction (t : Nat) : Action → Prop
  | .run t' _ => t' = t
  | .mark .. | .setConns .. => True
  | .start .. => False

instance (t : Nat) : DecidablePred (CallAction t) := fun a => by
  cases a <;> unfold CallAction <;> infer_instance

/-- Two UP backends: slot 0 with five connections, slot 1 with three. -/
def twoUp : LbCore :=
  { sampleCore with
    backendCount := 2
    backends := fun i =>
      if i = 0 then
        some { Registry.newBackend ⟨[49], by decide⟩ 80 1 with state := BACKEND_UP, activeConns := 5 }
      else if i = 1 then
        some { Registry.newBackend ⟨[50], by decide⟩ 81 1 with state := BACKEND_UP, activeConns := 3 }
      else none }

/-- Where a scan stands against the bound `m` of `best`: before `best` its minimum is above
`m`; after it, `best` is selected with a load of at most `m`. -/
def Tracks (best : Nat) (m : UInt32) (i : Nat) (sel : Option Nat) (minc : UInt32) : Prop :=
  (i ≤ best → m < minc) ∧ (best < i → sel = some best ∧ minc ≤ m)

/-- What a scan of a call whose states are `trace` knows at each position. -/
def Sep (best : Nat) (m : UInt32) (trace : List Sys) (lb : LbCore) : Pc → Prop
  | .lcTest i sel minc => Tracks best m i sel minc
  | .lcSlot i sel minc => i < lb.backendCount ∧ Tracks best m i sel minc
  | .lcState i sel minc => i < lb.backendCount ∧ (lb.backends i).isSome ∧ Tracks best m i sel minc
  | .lcConns i sel minc => i < lb.backendCount ∧ (lb.backends i).isSome ∧
      (i ≠ best → ∀ s ∈ trace, ∀ b ∈ s.core.backends i, m < b.activeConns) ∧
      Tracks best m i sel minc
  | .selectDone r => r = some best
  | _ => False

theorem sep_store {best : Nat} {m : UInt32} {trace : List Sys} {lb : LbCore} {pc : Pc}
    (sep : Sep best m trace lb pc) (i : Nat) (b : Backend) : Sep best m trace (lb.store i b) pc := by
  have kept := (store_grows lb i b).2
  cases pc <;> simp only [Sep, LbCore.store_backendCount] at sep ⊢
  case lcSlot => exact sep
  case lcState j _ _ => exact ⟨sep.1, kept j sep.2.1, sep.2.2⟩
  case lcConns j _ _ => exact ⟨sep.1, kept j sep.2.1, sep.2.2⟩
  all_goals exact sep

/-- A scan at a position it knows never waits, and each of its steps lowers its rank, until
it has returned `best`. -/
theorem sep_progress {best : Nat} {m : UInt32} {trace : List Sys} {lb : LbCore} {pc : Pc}
    (bounded : lb.backendCount ≤ MAX_BACKENDS) (sep : Sep best m trace lb pc) (choice : Bool) :
    pc = .selectDone (some best) ∨
      ∃ lb' pc' obs, threadStep lb choice pc = some (lb', pc', obs) ∧ pc'.rank < pc.rank := by
  cases pc <;> simp only [Sep] at sep
  case selectDone => exact .inl (congrArg _ sep)
  case lcTest i sel minc => exact .inr ⟨_, _, _, rfl, by split <;> simp only [Pc.rank] <;> omega⟩
  case lcSlot i sel minc =>
    simp only [threadStep, if_neg (show ¬MAX_BACKENDS ≤ i by omega)]
    exact .inr ⟨_, _, _, rfl, by split <;> simp only [Pc.rank] <;> omega⟩
  all_goals
    have below := sep.1
    simp only [threadStep]
    split
    · exact .inr ⟨_, _, _, rfl, by split <;> simp only [Pc.rank] <;> omega⟩
    · exact .inr ⟨_, _, _, rfl, by simp only [Pc.rank]; omega⟩

section Separated
variable {best : Nat} {m : UInt32} {trace : List Sys}
  (bestUp : ∀ s ∈ trace, ∃ c, UpWith s.core best c ∧ c ≤ m)
  (othersAbove : ∀ s ∈ trace, ∀ j < s.core.backendCount, j ≠ best → (∃ c, UpWith s.core j c) →
    ∀ s' ∈ trace, ∀ b ∈ s'.core.backends j, m < b.activeConns)
include bestUp othersAbove

/-- `best`'s slot holds a backend UP at this instant, so a slot read NULL or DOWN is another. -/
theorem other_of_down {s : Sys} (here : s ∈ trace) {i : Nat} {b : Backend}
    (slot : s.core.backends i = some b) (down : b.state ≠ BACKEND_UP) : i ≠ best := by
  rintro rfl
  obtain ⟨c, ⟨b', slot', up, -⟩, -⟩ := bestUp s here
  rw [slot] at slot'
  cases slot'
  exact down up

theorem other_of_empty {s : Sys} (here : s ∈ trace) {i : Nat}
    (empty : (s.core.backends i).isSome = false) : i ≠ best := by
  rintro rfl
  obtain ⟨c, ⟨b', slot', -, -⟩, -⟩ := bestUp s here
  simp [slot'] at empty

/-- A step of the scan on a core of the call keeps what it knows. -/
theorem sep_run {lb : LbCore} (here : ∃ s ∈ trace, s.core = lb) (bounded : lb.backendCount ≤ MAX_BACKENDS)
    (inRegistry : best < lb.backendCount) {choice : Bool} {lb' : LbCore} {pc pc' : Pc}
    {obs : List Obs} (sep : Sep best m trace lb pc)
    (moved : threadStep lb choice pc = some (lb', pc', obs)) :
    lb' = lb ∧ Sep best m trace lb pc' := by
  obtain ⟨s, here, rfl⟩ := here
  cases pc <;> simp only [Sep] at sep
  case lcTest i sel minc =>
    cases moved
    refine ⟨rfl, ?_⟩
    split
    · next below => exact ⟨below, sep⟩
    · exact (sep.2 (by omega)).1
  case lcSlot i sel minc =>
    obtain ⟨below, before, after⟩ := sep
    simp only [threadStep, if_neg (show ¬MAX_BACKENDS ≤ i by omega)] at moved
    cases moved
    refine ⟨rfl, ?_⟩
    split
    · next present => exact ⟨below, present, before, after⟩
    · next empty =>
      have other := other_of_empty bestUp othersAbove here (Bool.eq_false_iff.mpr empty)
      exact ⟨fun _ => before (by omega), fun past => after (by omega)⟩
  case lcState i sel minc =>
    obtain ⟨below, present, before, after⟩ := sep
    simp only [threadStep] at moved
    split at moved
    · next b slot =>
      cases moved
      refine ⟨rfl, ?_⟩
      split
      · next up =>
        refine ⟨below, by simp [slot], fun other => ?_, before, after⟩
        exact othersAbove s here i below other ⟨_, b, slot, up, rfl⟩
      · next down =>
        have other := other_of_down bestUp othersAbove here slot down
        exact ⟨fun _ => before (by omega), fun past => after (by omega)⟩
    · next empty => simp [empty] at present
  case lcConns i sel minc =>
    obtain ⟨below, present, above, before, after⟩ := sep
    simp only [threadStep] at moved
    split at moved
    · next b slot =>
      cases moved
      refine ⟨rfl, ?_⟩
      by_cases isBest : i = best
      · subst isBest
        obtain ⟨c, ⟨b', slot', -, rfl⟩, atMost⟩ := bestUp s here
        rw [slot] at slot'
        cases slot'
        have lower : b.activeConns < minc := by
          have := (uint32_le_iff _ _).mp atMost
          have := (uint32_lt_iff _ _).mp (before le_rfl)
          exact (uint32_lt_iff _ _).mpr (by omega)
        rw [if_pos lower]
        exact ⟨fun past => absurd past (by omega), fun _ => ⟨rfl, atMost⟩⟩
      · have high := (uint32_lt_iff _ _).mp (above isBest s here b slot)
        split
        · next lower =>
          refine ⟨fun _ => (uint32_lt_iff _ _).mpr high, fun past => ?_⟩
          have := (uint32_le_iff _ _).mp (after (by omega)).2
          have := (uint32_lt_iff _ _).mp lower
          omega
        · exact ⟨fun _ => before (by omega), fun past => after (by omega)⟩
    · next empty => simp [empty] at present
  case selectDone => cases moved

/-- A step of the call from a state of `trace` keeps the count and what the scan knows. -/
theorem sep_step {n : Nat} (bounded : n ≤ MAX_BACKENDS) (inRegistry : best < n) {t : Nat}
    {s s' : Sys} {a : Action} (here : s ∈ trace) (allowed : CallAction t a)
    (kept : s.core.backendCount = n ∧ Sep best m trace s.core (s.pcs t))
    (moved : step s a = some s') : s'.core.backendCount = n ∧ Sep best m trace s'.core (s'.pcs t) := by
  obtain ⟨counted, sep⟩ := kept
  rcases step_cases moved with ⟨t', call, rfl, -, rfl⟩ |
    ⟨t', choice, core, pc, obs, rfl, stepped, rfl⟩ | ⟨i, b, b', -, rfl⟩
  · exact allowed.elim
  · subst allowed
    obtain ⟨rfl, sep'⟩ :=
      sep_run bestUp othersAbove ⟨s, here, rfl⟩ (counted ▸ bounded) (counted ▸ inRegistry) sep stepped
    exact ⟨counted, by simpa only [Function.update_same] using sep'⟩
  · exact ⟨counted, sep_store sep i _⟩

/-- From a state on a core of the call, the scan's own steps return `best` within its rank. -/
theorem sep_finishes {lb : LbCore} (here : ∃ s ∈ trace, s.core = lb)
    (bounded : lb.backendCount ≤ MAX_BACKENDS) (inRegistry : best < lb.backendCount) (t : Nat) :
    ∀ (n : Nat) (s : Sys), (s.pcs t).rank < n → s.core = lb → Sep best m trace lb (s.pcs t) →
      ∃ k ≤ (s.pcs t).rank, ∃ later, runTrace s (List.replicate k (.run t false)) = some later ∧
        ∀ last ∈ later.getLast?, last.pcs t = .selectDone (some best)
  | 0, _, below, _, _ => absurd below (Nat.not_lt_zero _)
  | n + 1, s, below, rfl, sep => by
    rcases sep_progress bounded sep false with done | ⟨lb', pc', obs, stepped, lower⟩
    · exact ⟨0, Nat.zero_le _, [s], rfl, fun last final => by cases final; exact done⟩
    obtain ⟨rfl, sep'⟩ := sep_run bestUp othersAbove here bounded inRegistry sep stepped
    obtain ⟨k, atMost, later, ran, final⟩ := sep_finishes here bounded inRegistry t n
      ⟨s.core, Function.update s.pcs t pc', Function.update s.logs t (s.logs t ++ obs)⟩
      (by simp only [Function.update_same]; omega) rfl (by simpa only [Function.update_same] using sep')
    obtain ⟨next, rest, rfl⟩ := List.exists_cons_of_ne_nil (List.ne_nil_of_mem (runTrace_head ran))
    refine ⟨k + 1, by simp only [Function.update_same] at atMost; omega, s :: next :: rest, ?_, ?_⟩
    · simp only [List.replicate_succ, runTrace, step, stepped, Option.map_some', Option.some_bind, ran]
    · rwa [List.getLast?_cons_cons]

end Separated

/-- One scan interleaved with stores to backends' `state` and `active_conns`: if `best` is UP
at every instant of the call with a load of at most `m < UINT32_MAX`, and every other backend
of the registry that is UP at some instant has a load above `m` at every instant, then at every
instant of the call the scan has returned nothing but `best`, and its own steps alone, at most
its rank of them, return `best`. -/
theorem leastconn_separated_returns (t : Nat) (s₀ : Sys) (acts : List Action) (states : List Sys)
    (ran : runTrace s₀ acts = some states) (only : ∀ a ∈ acts, CallAction t a)
    (begins : s₀.pcs t = .lcTest 0 none UINT32_MAX) (bounded : s₀.core.backendCount ≤ MAX_BACKENDS)
    (best : Nat) (inRegistry : best < s₀.core.backendCount) (m : UInt32) (underMax : m < UINT32_MAX)
    (bestUp : ∀ s ∈ states, ∃ c, UpWith s.core best c ∧ c ≤ m)
    (othersAbove : ∀ s ∈ states, ∀ j < s.core.backendCount, j ≠ best → (∃ c, UpWith s.core j c) →
      ∀ s' ∈ states, ∀ b ∈ s'.core.backends j, m < b.activeConns) :
    ∀ s ∈ states, (∀ r, s.pcs t = .selectDone r → r = some best) ∧
      ∃ k ≤ (s.pcs t).rank, ∃ later, runTrace s (List.replicate k (.run t false)) = some later ∧
        ∀ last ∈ later.getLast?, last.pcs t = .selectDone (some best) := by
  have start : s₀.core.backendCount = s₀.core.backendCount ∧ Sep best m states s₀.core (s₀.pcs t) := by
    rw [begins]
    exact ⟨rfl, fun _ => underMax, fun past => absurd past (Nat.not_lt_zero _)⟩
  have kept := runTrace_keeps (fun s a => CallAction t a ∧ s ∈ states)
    (fun kept allowed moved => sep_step bestUp othersAbove bounded inRegistry allowed.2 allowed.1 kept moved)
    start ran fun p mem => ⟨only p.2 (List.of_mem_zip mem).2, (List.of_mem_zip mem).1⟩
  intro s mem
  obtain ⟨counted, sep⟩ := kept s mem
  refine ⟨fun r returned => by rw [returned] at sep; exact sep, ?_⟩
  exact sep_finishes bestUp othersAbove ⟨s, mem, rfl⟩ (counted ▸ bounded) (counted ▸ inRegistry) t _ s
    (Nat.lt_succ_self _) rfl sep

/-- The separation, in a form that can be checked state by state: the registry has `n`
slots, `best` is UP with a load of at most `m`, every other slot below `n` a load above `m`. -/
def SeparatedAt (n best : Nat) (m : UInt32) (lb : LbCore) : Prop :=
  lb.backendCount = n ∧ (∃ b ∈ lb.backends best, b.state = BACKEND_UP ∧ b.activeConns ≤ m) ∧
    ∀ j < n, j ≠ best → ∀ b ∈ lb.backends j, m < b.activeConns

instance (n best : Nat) (m : UInt32) (lb : LbCore) : Decidable (SeparatedAt n best m lb) :=
  inferInstanceAs (Decidable (_ ∧ _ ∧ _))

theorem separated_of_checks {n best : Nat} {m : UInt32} {trace : List Sys}
    (checks : ∀ s ∈ trace, SeparatedAt n best m s.core) :
    (∀ s ∈ trace, ∃ c, UpWith s.core best c ∧ c ≤ m) ∧
    (∀ s ∈ trace, ∀ j < s.core.backendCount, j ≠ best → (∃ c, UpWith s.core j c) →
      ∀ s' ∈ trace, ∀ b ∈ s'.core.backends j, m < b.activeConns) := by
  refine ⟨fun s here => ?_, fun s here j below other _ s' there b slot => ?_⟩
  · obtain ⟨-, ⟨b, slot, up, atMost⟩, -⟩ := checks s here
    exact ⟨b.activeConns, ⟨b, slot, up, rfl⟩, atMost⟩
  · obtain ⟨counted, -, -⟩ := checks s here
    exact (checks s' there).2.2 j (counted ▸ below) other b slot

/-- The scan of `twoUp` at its first test. -/
def scanStart : Sys := ⟨twoUp, fun _ => .lcTest 0 none UINT32_MAX, fun _ => []⟩

/-- The scan's nine steps to the return, while the environment raises slot 0's load, takes
slot 0 down after the scan read it UP, and lowers slot 1's load. -/
def scanActs : List Action :=
  [.run 0 false, .setConns 0 7, .run 0 false, .run 0 false, .mark 0 BACKEND_DOWN, .run 0 false,
    .setConns 1 2, .run 0 false, .run 0 false, .run 0 false, .run 0 false, .run 0 false]

def scanTrace : List Sys := (runTrace scanStart scanActs).getD []

/-- What a finished select returned. -/
def Pc.result : Pc → Option Nat
  | .selectDone r => r
  | _ => none

theorem leastconn_separated_returns_sample :
    ((scanTrace.getLast?.getD scanStart).pcs 0).result = some 1 :=
  have checks : ∀ s ∈ scanTrace, SeparatedAt 2 1 3 s.core := by decide
  (leastconn_separated_returns 0 scanStart scanActs scanTrace rfl (by decide) rfl (by decide) 1
    (by decide) 3 (by decide) (separated_of_checks checks).1 (separated_of_checks checks).2
    _ (List.mem_of_getLast?_eq_some rfl)).1 _ (by decide)

/-- At this instant `best` is UP and its load is below that of every other backend of the
registry UP at this instant. -/
def LeastAt (lb : LbCore) (best : Nat) : Prop :=
  ∃ b ∈ lb.backends best, b.state = BACKEND_UP ∧ ∀ j < lb.backendCount, j ≠ best →
    ∀ o ∈ lb.backends j, o.state = BACKEND_UP → b.activeConns < o.activeConns

instance (lb : LbCore) (best : Nat) : Decidable (LeastAt lb best) :=
  inferInstanceAs (Decidable (∃ b ∈ lb.backends best, _))

/-- The scan loads slot 0 as UP; slot 0 then goes down and its counter is reset before the
scan loads the counter. -/
def resetDuringScan : List Action :=
  [.start 0 .leastconnSelect, .run 0 false, .run 0 false, .run 0 false,
    .mark 0 BACKEND_DOWN, .setConns 0 0,
    .run 0 false, .run 0 false, .run 0 false, .run 0 false, .run 0 false, .run 0 false]

/-- Slot 1 is UP and less loaded than every other UP backend at every instant of the call, and
the scan returns slot 0. -/
theorem least_at_every_instant_not_returned :
    (runTrace (idleOn twoUp) resetDuringScan).map
      (fun states => (states.all fun s => decide (LeastAt s.core 1), states.getLast?.map (·.pcs 0))) =
      some (true, some (.selectDone (some 0))) := by
  decide

end UltraBalancer.Concurrent
