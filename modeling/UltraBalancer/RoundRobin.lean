import UltraBalancer.LeastConn
import Mathlib.Data.List.Rotate
import Mathlib.Data.Nat.Find

/-!
`strat_rr_select` run by one thread, and the dispatch `lb_core_select_backend`. The cursor `rr_idx` is an `atomic_uint`, so the source
computes with it modulo `2^32`. Against it stands round robin over an unbounded cursor,
which visits the UP slots in cyclic order for ever; the two agree as long as reducing the
cursor modulo `2^32` does not change it modulo `backend_count`, that is, while the cursor
has not wrapped or when `backend_count` divides `2^32`.
-/

namespace UltraBalancer.RoundRobin
open BackendState Lifecycle Registry LeastConn

theorem rrIdx_succ_toNat (u : UInt32) : (u + 1).toNat = (u.toNat + 1) % 4294967296 := by
  show (u.toBitVec + (1 : UInt32).toBitVec).toNat = _
  rw [BitVec.toNat_add]
  rfl

/-- The loop of `strat_rr_select` with `remaining` tries left: fetch-and-add the cursor,
reduce the fetched value modulo `backend_count`, and return the slot if it holds an UP
backend. -/
def rrLoop (lb : LbCore) : Nat → Option Nat × LbCore
  | 0 => (none, lb)
  | remaining + 1 =>
    let idx := lb.rrIdx.toNat % lb.backendCount
    let next := { lb with rrIdx := lb.rrIdx + 1 }
    if isUp (lb.backends idx) then (some idx, next) else rrLoop next remaining

/-- `strat_rr_select(lb, client)`: the returned slot and the core with its cursor moved. -/
def stratRrSelect (lb : LbCore) : Option Nat × LbCore :=
  if lb.backendCount = 0 then (none, lb) else rrLoop lb lb.backendCount

/-- The slots returned by `calls` successive calls. -/
def rrRun (lb : LbCore) : Nat → List (Option Nat)
  | 0 => []
  | calls + 1 => (stratRrSelect lb).1 :: rrRun (stratRrSelect lb).2 calls

/-! ### Round robin over an unbounded cursor -/

/-- `remaining` probes from cursor `c` over `n` slots: the probe at `c` looks at `c % n`. -/
def probe (up : Nat → Bool) (n : Nat) (c : Nat) : Nat → Option Nat × Nat
  | 0 => (none, c)
  | remaining + 1 => if up (c % n) then (some (c % n), c + 1) else probe up n (c + 1) remaining

/-- One selection over an unbounded cursor: at most `n` probes. -/
def selectAbs (up : Nat → Bool) (n c : Nat) : Option Nat × Nat :=
  if n = 0 then (none, c) else probe up n c n

/-- The slots returned by `calls` successive selections from cursor `c`. -/
def runAbs (up : Nat → Bool) (n : Nat) (c : Nat) : Nat → List (Option Nat)
  | 0 => []
  | calls + 1 => (selectAbs up n c).1 :: runAbs up n (selectAbs up n c).2 calls

/-- The UP slots among `0..n-1`, in cyclic order from slot `c % n`. -/
def cyclicOrder (up : Nat → Bool) (n c : Nat) : List Nat :=
  ((List.range n).rotate c).filter up

theorem probe_first (up : Nat → Bool) (n : Nat) {c d r : Nat} (found : up ((c + d) % n))
    (before : ∀ j < d, up ((c + j) % n) = false) (inTime : d < r) :
    probe up n c r = (some ((c + d) % n), c + d + 1) := by
  induction d generalizing c r with
  | zero =>
    obtain ⟨r, rfl⟩ : ∃ r', r = r' + 1 := ⟨r - 1, by omega⟩
    simp_all [probe]
  | succ d ih =>
    obtain ⟨r, rfl⟩ : ∃ r', r = r' + 1 := ⟨r - 1, by omega⟩
    have skip := before 0 (by omega)
    rw [Nat.add_zero] at skip
    have shift : c + (d + 1) = c + 1 + d := by omega
    rw [probe, if_neg (by simp [skip]), shift, ih (by rwa [← shift]) (fun j below => by
      rw [Nat.add_right_comm]; exact before (j + 1) (by omega)) (by omega)]

theorem probe_none (up : Nat → Bool) (n : Nat) {c r : Nat}
    (none : ∀ j < r, up ((c + j) % n) = false) : probe up n c r = (Option.none, c + r) := by
  induction r generalizing c with
  | zero => rfl
  | succ r ih =>
    have skip := none 0 (by omega)
    rw [Nat.add_zero] at skip
    rw [probe, if_neg (by simp [skip]), ih (fun j below => by
      rw [Nat.add_right_comm]; exact none (j + 1) (by omega))]
    congr 1
    omega

theorem probe_advance (up : Nat → Bool) (n c r : Nat) :
    c ≤ (probe up n c r).2 ∧ (probe up n c r).2 ≤ c + r := by
  induction r generalizing c with
  | zero => exact ⟨le_rfl, le_rfl⟩
  | succ r ih =>
    simp only [probe]
    split
    · exact ⟨by omega, by omega⟩
    · have := ih (c + 1)
      exact ⟨by omega, by omega⟩

theorem selectAbs_advance (up : Nat → Bool) (n c : Nat) :
    c ≤ (selectAbs up n c).2 ∧ (selectAbs up n c).2 ≤ c + n := by
  unfold selectAbs
  split
  · exact ⟨le_rfl, by omega⟩
  · exact probe_advance up n c n

theorem rotatedRange_getElem? (n c j : Nat) (below : j < n) :
    ((List.range n).rotate c)[j]? = some ((c + j) % n) := by
  rw [List.getElem?_rotate (by simpa using below), List.length_range,
    List.getElem?_range (Nat.mod_lt _ (by omega)), Nat.add_comm]

theorem mem_rotatedRange {n c x : Nat} :
    x ∈ (List.range n).rotate c ↔ ∃ j < n, (c + j) % n = x := by
  rw [List.mem_iff_getElem?]
  constructor
  · rintro ⟨j, found⟩
    have below : j < n := by
      have := (List.getElem?_eq_some_iff.mp found).1
      simpa using this
    rw [rotatedRange_getElem? n c j below, Option.some.injEq] at found
    exact ⟨j, below, found⟩
  · rintro ⟨j, below, rfl⟩
    exact ⟨j, rotatedRange_getElem? n c j below⟩

/-- Some slot of the cycle is UP exactly when some probe of one pass finds one. -/
theorem exists_first_up {up : Nat → Bool} {n c : Nat} (nonempty : cyclicOrder up n c ≠ []) :
    ∃ d < n, up ((c + d) % n) ∧ ∀ j < d, up ((c + j) % n) = false := by
  classical
  obtain ⟨x, mem⟩ := List.exists_mem_of_ne_nil _ nonempty
  obtain ⟨inCycle, upX⟩ := List.mem_filter.mp mem
  obtain ⟨j, below, rfl⟩ := mem_rotatedRange.mp inCycle
  have someUp : ∃ j, j < n ∧ up ((c + j) % n) := ⟨j, below, upX⟩
  refine ⟨Nat.find someUp, (Nat.find_spec someUp).1, (Nat.find_spec someUp).2, fun i before => ?_⟩
  have := Nat.find_min someUp before
  simp only [not_and, Bool.not_eq_true] at this
  exact this (by have := (Nat.find_spec someUp).1; omega)

theorem filter_take_before {up : Nat → Bool} {n c d t : Nat} (inRange : d < n)
    (before : ∀ j < d, up ((c + j) % n) = false) (early : t ≤ d) :
    (((List.range n).rotate c).take t).filter up = [] := by
  rw [List.filter_eq_nil_iff]
  intro x mem
  obtain ⟨j, taken⟩ := List.mem_iff_getElem?.mp mem
  rw [List.getElem?_take] at taken
  split_ifs at taken with below
  rw [rotatedRange_getElem? n c j (by omega), Option.some.injEq] at taken
  rw [← taken, before j (by omega)]
  exact Bool.false_ne_true

section FirstUp
variable {up : Nat → Bool} {n c d : Nat} (inRange : d < n) (found : up ((c + d) % n))
  (before : ∀ j < d, up ((c + j) % n) = false)
include inRange found before

theorem filter_take_first :
    (((List.range n).rotate c).take (d + 1)).filter up = [(c + d) % n] := by
  rw [List.take_succ, rotatedRange_getElem? n c d inRange, Option.toList_some, List.filter_append,
    List.filter_singleton, found, cond_true, filter_take_before inRange before le_rfl]
  rfl

theorem cyclicOrder_first :
    cyclicOrder up n c = (c + d) % n :: (((List.range n).rotate c).drop (d + 1)).filter up := by
  rw [cyclicOrder]
  conv_lhs => rw [← List.take_append_drop (d + 1) ((List.range n).rotate c)]
  rw [List.filter_append, filter_take_first inRange found before, List.singleton_append]

theorem cyclicOrder_after_first :
    cyclicOrder up n (c + d + 1) = (cyclicOrder up n c).rotate 1 := by
  have fits : d + 1 ≤ ((List.range n).rotate c).length := by simp; omega
  rw [cyclicOrder_first inRange found before, List.rotate_cons_succ, List.rotate_zero, cyclicOrder,
    Nat.add_assoc, ← List.rotate_rotate, List.rotate_eq_drop_append_take fits, List.filter_append,
    filter_take_first inRange found before]

theorem selectAbs_first :
    selectAbs up n c = (some ((c + d) % n), c + d + 1) := by
  rw [selectAbs, if_neg (by omega), probe_first up n found before inRange]

end FirstUp

/-- One selection returns the head of the cycle and leaves the cycle turned by one. -/
theorem selectAbs_turns {up : Nat → Bool} {n c : Nat} (nonempty : cyclicOrder up n c ≠ []) :
    ∃ u rest, cyclicOrder up n c = u :: rest ∧ (selectAbs up n c).1 = some u ∧
      cyclicOrder up n (selectAbs up n c).2 = rest ++ [u] := by
  obtain ⟨d, inRange, found, before⟩ := exists_first_up nonempty
  refine ⟨_, _, cyclicOrder_first inRange found before, ?_, ?_⟩
  · rw [selectAbs_first inRange found before]
  · rw [selectAbs_first inRange found before, cyclicOrder_after_first inRange found before,
      cyclicOrder_first inRange found before, List.rotate_cons_succ, List.rotate_zero]

/-- Successive selections walk the cycle of UP slots: the `i`-th returns its `i mod |cycle|`-th
member. -/
theorem runAbs_cycle (up : Nat → Bool) (n : Nat) (m : Nat) : ∀ c, cyclicOrder up n c ≠ [] →
    runAbs up n c m =
      (List.range m).map fun i => (cyclicOrder up n c)[i % (cyclicOrder up n c).length]? := by
  induction m with
  | zero => intros; rfl
  | succ m ih =>
    intro c nonempty
    obtain ⟨u, rest, cycle, first, turned⟩ := selectAbs_turns nonempty
    rw [runAbs, first, ih _ (by rw [turned]; simp), turned, cycle, List.range_succ_eq_map,
      List.map_cons, List.map_map]
    congr 1
    · simp
    · apply List.map_congr_left
      intro i _
      have rotated : rest ++ [u] = (u :: rest).rotate 1 := by
        rw [List.rotate_cons_succ, List.rotate_zero]
      have positive : 0 < (u :: rest).length := by simp
      simp only [Function.comp, rotated, List.length_rotate]
      rw [List.getElem?_rotate (Nat.mod_lt _ positive), Nat.mod_add_mod]

/-- The unbounded cursor after `calls` successive selections from `c`. -/
def cursorAfter (up : Nat → Bool) (n : Nat) (c : Nat) : Nat → Nat
  | 0 => c
  | calls + 1 => cursorAfter up n (selectAbs up n c).2 calls

theorem cursorAfter_mono (up : Nat → Bool) (n : Nat) (calls : Nat) :
    ∀ c, c ≤ cursorAfter up n c calls := by
  induction calls with
  | zero => exact fun c => le_rfl
  | succ calls ih => exact fun c => (selectAbs_advance up n c).1.trans (ih _)

/-- `i` selections from `c` stay within the first `t` slots of the cycle when those hold at
least `i` UP slots. -/
theorem cursorAfter_within (up : Nat → Bool) (n i : Nat) : ∀ c t, t ≤ n →
    i ≤ ((((List.range n).rotate c).take t).filter up).length → cursorAfter up n c i ≤ c + t := by
  induction i with
  | zero => exact fun c t _ _ => Nat.le_add_right c t
  | succ i ih =>
    intro c t fits enough
    have nonempty : cyclicOrder up n c ≠ [] := by
      intro empty
      have := (((List.take_sublist t ((List.range n).rotate c)).filter up).length_le)
      rw [← cyclicOrder, empty] at this
      simp only [List.length_nil] at this
      omega
    obtain ⟨d, inRange, found, before⟩ := exists_first_up nonempty
    have reached : d < t := Nat.lt_of_not_le fun late => by
      rw [filter_take_before inRange before late] at enough
      simp at enough
    have length : ((List.range n).rotate c).length = n := by simp
    have split := List.take_add ((List.range n).rotate c) (d + 1) (t - (d + 1))
    rw [Nat.add_sub_cancel' reached] at split
    rw [split, List.filter_append, filter_take_first inRange found before, List.length_append,
      List.length_singleton] at enough
    have next : (((List.range n).rotate (c + d + 1)).take (t - (d + 1))) =
        (((List.range n).rotate c).drop (d + 1)).take (t - (d + 1)) := by
      rw [Nat.add_assoc, ← List.rotate_rotate, List.rotate_eq_drop_append_take (by omega),
        List.take_append_of_le_length (by simp; omega)]
    have := ih (c + d + 1) (t - (d + 1)) (by omega) (by rw [next]; omega)
    rw [cursorAfter, selectAbs_first inRange found before]
    dsimp only
    omega

theorem cursorAfter_cycle (up : Nat → Bool) (n i : Nat) : ∀ c, cyclicOrder up n c ≠ [] →
    cyclicOrder up n (cursorAfter up n c i) = (cyclicOrder up n c).rotate i := by
  induction i with
  | zero => intros; simp [cursorAfter]
  | succ i ih =>
    intro c nonempty
    obtain ⟨u, rest, cycle, -, turned⟩ := selectAbs_turns nonempty
    rw [cursorAfter, ih _ (by rw [turned]; simp), turned, cycle, Nat.add_comm, ← List.rotate_rotate,
      List.rotate_cons_succ, List.rotate_zero]

theorem cursorAfter_add (up : Nat → Bool) (n a b : Nat) : ∀ c,
    cursorAfter up n c (a + b) = cursorAfter up n (cursorAfter up n c a) b := by
  induction a with
  | zero => intro c; simp [cursorAfter]
  | succ a ih => intro c; rw [Nat.add_right_comm]; exact ih _

/-- `k` rounds of `|cycle|` selections use at most `k * n` cursor values. -/
theorem cursorAfter_rounds (up : Nat → Bool) (n k : Nat) : ∀ c, cyclicOrder up n c ≠ [] →
    cursorAfter up n c (k * (cyclicOrder up n c).length) ≤ c + k * n := by
  induction k with
  | zero => intros; simp [cursorAfter]
  | succ k ih =>
    intro c nonempty
    have round := cursorAfter_within up n (cyclicOrder up n c).length c n le_rfl
      (by rw [List.take_of_length_le (by simp)]; rfl)
    have same := cursorAfter_cycle up n (cyclicOrder up n c).length c nonempty
    rw [List.rotate_length] at same
    have rest := ih _ (by rwa [same])
    rw [same] at rest
    rw [Nat.succ_mul, Nat.add_comm, cursorAfter_add]
    rw [Nat.succ_mul]
    omega

/-! ### The source's loop against the unbounded cursor -/

theorem rrLoop_frame (lb : LbCore) (r : Nat) :
    (rrLoop lb r).2 = { lb with rrIdx := (rrLoop lb r).2.rrIdx } := by
  induction r generalizing lb with
  | zero => rfl
  | succ r ih =>
    simp only [rrLoop]
    split
    · rfl
    · exact ih _

/-- While the cursor tracks an unbounded one and every slot actually probed is the same
for both, the loop returns what `probe` returns and leaves the cursor where `probe` leaves
it, modulo `2^32`. -/
theorem rrLoop_simulates (lb : LbCore) (c r : Nat) (tracks : lb.rrIdx.toNat = c % 4294967296)
    (agree : ∀ p, c ≤ p → p < (probe (slotUp lb) lb.backendCount c r).2 →
      p % 4294967296 % lb.backendCount = p % lb.backendCount) :
    (rrLoop lb r).1 = (probe (slotUp lb) lb.backendCount c r).1 ∧
    (rrLoop lb r).2.rrIdx.toNat = (probe (slotUp lb) lb.backendCount c r).2 % 4294967296 := by
  induction r generalizing lb c with
  | zero => exact ⟨rfl, tracks⟩
  | succ r ih =>
    have moved : (lb.rrIdx + 1).toNat = (c + 1) % 4294967296 := by
      rw [rrIdx_succ_toNat, tracks]
      omega
    have reached : c < (probe (slotUp lb) lb.backendCount c (r + 1)).2 := by
      simp only [probe]
      split
      · omega
      · have := (probe_advance (slotUp lb) lb.backendCount (c + 1) r).1
        omega
    have here : lb.rrIdx.toNat % lb.backendCount = c % lb.backendCount := by
      rw [tracks]
      exact agree c le_rfl reached
    simp only [rrLoop, probe, here] at agree ⊢
    split
    · next up =>
      simp only [slotUp, up, if_true]
      exact ⟨trivial, moved⟩
    · next down =>
      simp only [slotUp, down, if_false, Bool.false_eq_true] at agree ⊢
      exact ih { lb with rrIdx := lb.rrIdx + 1 } (c + 1) moved fun p above below =>
        agree p (by omega) below

/-- `strat_rr_select` against one selection over the unbounded cursor. -/
theorem stratRrSelect_simulates (lb : LbCore) (c : Nat) (tracks : lb.rrIdx.toNat = c % 4294967296)
    (agree : ∀ p, c ≤ p → p < (selectAbs (slotUp lb) lb.backendCount c).2 →
      p % 4294967296 % lb.backendCount = p % lb.backendCount) :
    (stratRrSelect lb).1 = (selectAbs (slotUp lb) lb.backendCount c).1 ∧
    (stratRrSelect lb).2.rrIdx.toNat = (selectAbs (slotUp lb) lb.backendCount c).2 % 4294967296 ∧
    (stratRrSelect lb).2 = { lb with rrIdx := (stratRrSelect lb).2.rrIdx } := by
  unfold stratRrSelect selectAbs at *
  split
  · exact ⟨rfl, tracks, rfl⟩
  · next nonzero =>
    simp only [if_neg nonzero] at agree
    exact ⟨(rrLoop_simulates lb c _ tracks agree).1, (rrLoop_simulates lb c _ tracks agree).2,
      rrLoop_frame lb _⟩

/-- Successive calls against successive selections, as long as every cursor value the run
uses is the same modulo `backend_count` before and after reduction modulo `2^32`. -/
theorem rrRun_simulates (calls : Nat) : ∀ (lb : LbCore) (c : Nat),
    lb.rrIdx.toNat = c % 4294967296 →
    (∀ p, c ≤ p → p < cursorAfter (slotUp lb) lb.backendCount c calls →
      p % 4294967296 % lb.backendCount = p % lb.backendCount) →
    rrRun lb calls = runAbs (slotUp lb) lb.backendCount c calls := by
  induction calls with
  | zero => intros; rfl
  | succ calls ih =>
    intro lb c tracks agree
    have later := cursorAfter_mono (slotUp lb) lb.backendCount calls
      (selectAbs (slotUp lb) lb.backendCount c).2
    obtain ⟨first, moved, frame⟩ := stratRrSelect_simulates lb c tracks fun p above below =>
      agree p above (by simp only [cursorAfter]; omega)
    rw [rrRun, runAbs, first, frame]
    congr 1
    exact ih _ _ moved fun p above below =>
      agree p (by have := (selectAbs_advance (slotUp lb) lb.backendCount c).1; omega) below

/-! ### What a caller sees -/

/-- The UP slots of `backends[0..backend_count)` in cyclic order from the slot the cursor
points at, `rr_idx mod backend_count`. -/
def upCycle (lb : LbCore) : List Nat :=
  cyclicOrder (slotUp lb) lb.backendCount (lb.rrIdx.toNat % lb.backendCount)

theorem upCycle_eq (lb : LbCore) :
    upCycle lb = cyclicOrder (slotUp lb) lb.backendCount lb.rrIdx.toNat := by
  have turn := List.rotate_mod (List.range lb.backendCount) lb.rrIdx.toNat
  rw [List.length_range] at turn
  rw [upCycle, cyclicOrder, cyclicOrder, turn]

theorem cyclicOrder_eq_nil_iff {up : Nat → Bool} {n c : Nat} :
    cyclicOrder up n c = [] ↔ ∀ i < n, up i = false := by
  simp only [cyclicOrder, List.filter_eq_nil_iff, List.mem_rotate, List.mem_range,
    Bool.not_eq_true]

theorem cyclicOrder_nodup (up : Nat → Bool) (n c : Nat) : (cyclicOrder up n c).Nodup :=
  (List.nodup_rotate.mpr (List.nodup_range n)).filter up

theorem agree_of_noWrap {n c bound : Nat} (noWrap : n ∣ 4294967296 ∨ bound ≤ 4294967296) :
    ∀ p, c ≤ p → p < bound → p % 4294967296 % n = p % n := fun p _ below =>
  noWrap.elim (fun divides => Nat.mod_mod_of_dvd p divides)
    (fun fits => by rw [Nat.mod_eq_of_lt (show p < 4294967296 by omega)])

theorem tracks_self (lb : LbCore) : lb.rrIdx.toNat = lb.rrIdx.toNat % 4294967296 :=
  (Nat.mod_eq_of_lt lb.rrIdx.toNat_lt_size).symm

/-- Walking a cycle `k` times round, read as a list. -/
theorem range_map_cycle (cycle : List Nat) (k : Nat) :
    (List.range (k * cycle.length)).map (fun i => cycle[i % cycle.length]?) =
      (List.replicate k (cycle.map some)).flatten := by
  induction k with
  | zero => simp
  | succ k ih =>
    rw [Nat.succ_mul, List.range_add, List.map_append, ih, List.replicate_succ',
      List.flatten_append, List.flatten_singleton, List.map_map]
    congr 1
    apply List.ext_getElem?
    intro i
    by_cases below : i < cycle.length
    · simp [Nat.mul_comm k, Nat.mul_add_mod, Nat.mod_eq_of_lt below, below]
    · have beyond := Nat.le_of_not_lt below
      simp [List.getElem?_eq_none beyond, below, beyond]

theorem count_flatten_replicate (cycle : List (Option Nat)) (r : Option Nat) (k : Nat) :
    (List.replicate k cycle).flatten.count r = k * cycle.count r := by
  induction k with
  | zero => simp
  | succ k ih =>
    rw [List.replicate_succ', List.flatten_append, List.flatten_singleton, List.count_append, ih,
      Nat.succ_mul]

/-- Three slots holding backends, UP where `up` says so, with the cursor at `c`. -/
def threeSlots (c : UInt32) (up : Nat → Bool) : LbCore :=
  { sampleCore with
    backendCount := 3
    backends := fun i => if i < 3 then
      some { newBackend ⟨[49], by decide⟩ 80 1 with state := if up i then BACKEND_UP else BACKEND_DOWN }
      else none
    rrIdx := c }

/-- `lb_core_select_backend(lb, client)`. The source stops after `return lb->strategy.select`;
the call is completed as `select(lb, client)`, the dispatch through the bound strategy. -/
def lbCoreSelectBackend (lb : LbCore) : Option Nat × LbCore :=
  if lb.backendCount = 0 then (none, lb)
  else match lb.strategy.select with
    | .stratLeastconnSelect => (stratLeastconnSelect lb, lb)
    | .stratRrSelect => stratRrSelect lb

theorem rrLoop_up (lb : LbCore) (r : Nat) (nonempty : 0 < lb.backendCount) {i : Nat}
    (chosen : (rrLoop lb r).1 = some i) : i < lb.backendCount ∧ slotUp lb i := by
  induction r generalizing lb with
  | zero => cases chosen
  | succ r ih =>
    simp only [rrLoop] at chosen
    split at chosen
    · next up =>
      cases chosen
      exact ⟨Nat.mod_lt _ nonempty, up⟩
    · exact ih { lb with rrIdx := lb.rrIdx + 1 } nonempty chosen

end UltraBalancer.RoundRobin
