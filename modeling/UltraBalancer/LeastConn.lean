import UltraBalancer.Registry

/-!
`strat_leastconn_select` run by one thread: one pass over `backends[0..backend_count)`
keeping the least `active_conns` seen among UP backends. The pass returns the lowest slot
of least load, except that a load equal to the sentinel `UINT32_MAX` never beats it.
-/

namespace UltraBalancer.LeastConn
open BackendState Lifecycle Registry

/-- The body of the scan's loop at slot `i`, on the running `(sel, minc)`. The selected
backend is given by its slot. -/
def leastconnVisit (lb : LbCore) (acc : Option Nat × UInt32) (i : Nat) : Option Nat × UInt32 :=
  match lb.backends i with
  | none => acc
  | some b =>
    if b.state = BACKEND_UP then
      if b.activeConns < acc.2 then (some i, b.activeConns) else acc
    else acc

/-- `strat_leastconn_select(lb, client)`; the client address is ignored. -/
def stratLeastconnSelect (lb : LbCore) : Option Nat :=
  ((List.range lb.backendCount).foldl (leastconnVisit lb) (none, UINT32_MAX)).1

/-- Slot `i` holds an UP backend with load `c`. -/
def UpWith (lb : LbCore) (i : Nat) (c : UInt32) : Prop :=
  ∃ b, lb.backends i = some b ∧ b.state = BACKEND_UP ∧ b.activeConns = c

/-- What the scan knows after the slots below `k`: `minc` bounds every UP load seen, and
`sel` is the first slot that holds it, or none while `minc` is still `UINT32_MAX`. -/
def ScanSummary (lb : LbCore) (k : Nat) (acc : Option Nat × UInt32) : Prop :=
  (∀ i < k, ∀ c, UpWith lb i c → acc.2.toNat ≤ c.toNat) ∧
  match acc.1 with
  | none => acc.2 = UINT32_MAX
  | some j => j < k ∧ UpWith lb j acc.2 ∧ acc.2.toNat < UINT32_MAX.toNat ∧
      ∀ i < j, ∀ c, UpWith lb i c → acc.2.toNat < c.toNat

theorem scanSummary_keep {lb : LbCore} {k : Nat} {acc : Option Nat × UInt32}
    (summary : ScanSummary lb k acc) (atK : ∀ c, UpWith lb k c → acc.2.toNat ≤ c.toNat) :
    ScanSummary lb (k + 1) acc := by
  rcases acc with ⟨_ | j, minc⟩
  all_goals obtain ⟨bound, chosen⟩ := summary
  all_goals refine ⟨fun i below c up => ?_, ?_⟩
  all_goals try (rcases Nat.lt_succ_iff_lt_or_eq.mp below with below | rfl
                 · exact bound i below c up
                 · exact atK c up)
  · exact chosen
  · exact ⟨by omega, chosen.2⟩

theorem scanSummary_visit {lb : LbCore} {k : Nat} {acc : Option Nat × UInt32}
    (summary : ScanSummary lb k acc) : ScanSummary lb (k + 1) (leastconnVisit lb acc k) := by
  unfold leastconnVisit
  cases slot : lb.backends k with
  | none => exact scanSummary_keep summary fun c ⟨b, stored, _⟩ => by simp_all
  | some b =>
    dsimp only
    by_cases up : b.state = BACKEND_UP
    · by_cases lower : b.activeConns < acc.2
      · simp only [if_pos up, if_pos lower]
        rw [uint32_lt_iff] at lower
        obtain ⟨bound, chosen⟩ := summary
        have underMax : acc.2.toNat ≤ UINT32_MAX.toNat := toNat_le_UINT32_MAX _
        refine ⟨fun i below c upWith => ?_, by omega, ⟨b, slot, up, rfl⟩, by dsimp only; omega,
          fun i below c upWith => by
            show b.activeConns.toNat < c.toNat
            have := bound i below c upWith
            omega⟩
        show b.activeConns.toNat ≤ c.toNat
        rcases Nat.lt_succ_iff_lt_or_eq.mp below with below | rfl
        · have := bound i below c upWith
          omega
        · obtain ⟨b', stored, _, rfl⟩ := upWith
          simp_all
      · simp only [if_pos up, if_neg lower]
        refine scanSummary_keep summary fun c ⟨b', stored, _, conns⟩ => ?_
        simp only [slot, Option.some.injEq] at stored
        subst stored
        subst conns
        rw [uint32_lt_iff] at lower
        omega
    · simp only [if_neg up]
      exact scanSummary_keep summary fun c ⟨b', stored, upb', _⟩ => by simp_all

theorem scanSummary_range (lb : LbCore) (k : Nat) :
    ScanSummary lb k ((List.range k).foldl (leastconnVisit lb) (none, UINT32_MAX)) := by
  induction k with
  | zero => exact ⟨fun i below => absurd below (Nat.not_lt_zero i), rfl⟩
  | succ k ih =>
    rw [List.range_succ, List.foldl_append, List.foldl_cons, List.foldl_nil]
    exact scanSummary_visit ih

/-- A selected slot is below `backend_count` and holds an UP backend. -/
theorem stratLeastconnSelect_up {lb : LbCore} {j : Nat} (chosen : stratLeastconnSelect lb = some j) :
    j < lb.backendCount ∧ slotUp lb j := by
  have summary := (scanSummary_range lb lb.backendCount).2
  unfold stratLeastconnSelect at chosen
  rw [chosen] at summary
  obtain ⟨below, ⟨b, stored, up, -⟩, -⟩ := summary
  exact ⟨below, by simp [slotUp, stored, up, isUp]⟩

/-- Slot `j` holds the least load `c` among the UP backends of `backends[0..backend_count)`,
and is the lowest slot holding it. -/
def LeastLoaded (lb : LbCore) (j : Nat) (c : UInt32) : Prop :=
  j < lb.backendCount ∧ UpWith lb j c ∧
    ∀ i < lb.backendCount, ∀ c', UpWith lb i c' → c.toNat ≤ c'.toNat ∧ (c'.toNat = c.toNat → j ≤ i)

theorem leastLoaded_unique {lb : LbCore} {j j' : Nat} {c c' : UInt32} (least : LeastLoaded lb j c)
    (least' : LeastLoaded lb j' c') : j = j' := by
  have one := least.2.2 j' least'.1 c' least'.2.1
  have other := least'.2.2 j least.1 c least.2.1
  omega

/-- The scan returns the lowest least-loaded UP slot when that load is below `UINT32_MAX`,
and NULL exactly when every UP backend's load is `UINT32_MAX`. -/
theorem stratLeastconnSelect_spec (lb : LbCore) :
    (∀ j, stratLeastconnSelect lb = some j ↔ ∃ c, LeastLoaded lb j c ∧ c ≠ UINT32_MAX) ∧
    (stratLeastconnSelect lb = none ↔
      ∀ i < lb.backendCount, ∀ c, UpWith lb i c → c = UINT32_MAX) := by
  have summary := scanSummary_range lb lb.backendCount
  unfold stratLeastconnSelect
  generalize (List.range lb.backendCount).foldl (leastconnVisit lb) (none, UINT32_MAX) = acc at summary ⊢
  rcases acc with ⟨_ | j₀, minc⟩ <;> obtain ⟨bound, chosen⟩ := summary
  · change minc = UINT32_MAX at chosen
    subst chosen
    have atMax : ∀ i < lb.backendCount, ∀ c, UpWith lb i c → c = UINT32_MAX := fun i below c up =>
      (uint32_eq_iff _ _).mpr (Nat.le_antisymm (toNat_le_UINT32_MAX c) (bound i below c up))
    exact ⟨fun j => ⟨nofun, fun ⟨c, least, notMax⟩ => absurd (atMax j least.1 c least.2.1) notMax⟩,
      ⟨fun _ => atMax, fun _ => rfl⟩⟩
  · obtain ⟨below, up, underMax, first⟩ := chosen
    dsimp only at bound underMax first
    have least : LeastLoaded lb j₀ minc := ⟨below, up, fun i iBelow c up' =>
      ⟨bound i iBelow c up', fun same => Nat.le_of_not_lt fun before => by
        have := first i before c up'
        omega⟩⟩
    have notMax : minc ≠ UINT32_MAX := fun atMax => by
      rw [atMax] at underMax
      exact Nat.lt_irrefl _ underMax
    refine ⟨fun j => ⟨fun same => ?_, fun ⟨c, least', _⟩ => ?_⟩,
      ⟨nofun, fun allMax => absurd (allMax j₀ below minc up) notMax⟩⟩
    · cases same
      exact ⟨minc, least, notMax⟩
    · rw [leastLoaded_unique least least']

/-- One backend, marked UP, whose counter holds `UINT32_MAX`, the value a decrement at zero
wraps to. -/
def saturatedCore : LbCore :=
  { sampleCore with
    backendCount := 1
    backends := fun i => if i = 0 then
      some { newBackend ⟨[49], by decide⟩ 80 1 with state := BACKEND_UP, activeConns := UINT32_MAX }
      else none }

/-- The only backend is UP, and the scan still returns NULL. -/
theorem saturated_backend_not_selected :
    UpWith saturatedCore 0 UINT32_MAX ∧ stratLeastconnSelect saturatedCore = none :=
  ⟨⟨_, rfl, rfl, rfl⟩, rfl⟩

end UltraBalancer.LeastConn
