import UltraBalancer.Concurrent.Serial
import UltraBalancer.RoundRobin
import Mathlib.Data.List.Iterate

/-!
The round-robin cursor under any interleaving. `atomic_fetch_add(&lb->rr_idx, 1)` is one step,
so no update of the cursor is lost or duplicated: the fetches of a run, whichever threads make
them and whatever runs between them, read the cursor's first value, then the next, and so on
modulo `2^32`, and the cursor ends advanced by their number.
-/

namespace UltraBalancer.Concurrent
open RoundRobin

/-- The cursor value an action reads by `atomic_fetch_add`, if it makes one. -/
def fetchOf (s : Sys) : Action → Option UInt32
  | .run t _ =>
    match s.pcs t with
    | .rrFetch _ => some s.core.rrIdx
    | _ => none
  | _ => none

/-- The cursor values the fetches of a run read, in order, up to the first action that
cannot happen. -/
def fetched (s : Sys) : List Action → List UInt32
  | [] => []
  | a :: rest =>
    match step s a with
    | some s' => (fetchOf s a).toList ++ fetched s' rest
    | none => []

@[simp] theorem publish_rrIdx (lb : LbCore) (b : Backend) (c : Nat) (countNow : Bool) :
    (publish lb b c countNow).rrIdx = lb.rrIdx := by
  cases countNow <;> rfl

/-- What one step does to the cursor: a fetch reads it and advances it by one; every other step
leaves it. -/
theorem step_cursor {s s' : Sys} {a : Action} (moved : step s a = some s') :
    (fetchOf s a = some s.core.rrIdx ∧ s'.core.rrIdx = s.core.rrIdx + 1) ∨
    (fetchOf s a = none ∧ s'.core.rrIdx = s.core.rrIdx) := by
  cases a with
  | start t call =>
    simp only [step] at moved
    split at moved
    · cases moved
      exact .inr ⟨rfl, rfl⟩
    · cases moved
  | run t choice =>
    simp only [step, Option.map_eq_some'] at moved
    obtain ⟨⟨core, pc, obs⟩, stepped, rfl⟩ := moved
    have core := threadStep_core stepped
    subst core
    cases here : s.pcs t <;> simp [fetchOf, here, coreAfter]
  | mark i _ | setConns i _ =>
    simp only [step, Option.map_eq_some'] at moved
    obtain ⟨b, -, rfl⟩ := moved
    exact .inr ⟨rfl, rfl⟩

theorem fetched_iterate (acts : List Action) : ∀ (s : Sys) (states : List Sys),
    runTrace s acts = some states →
    fetched s acts = List.iterate (· + 1) s.core.rrIdx (fetched s acts).length ∧
    ∀ last ∈ states.getLast?, last.core.rrIdx = (· + 1)^[(fetched s acts).length] s.core.rrIdx := by
  induction acts with
  | nil =>
    intro s states ran
    cases ran
    exact ⟨rfl, fun last mem => by cases mem; rfl⟩
  | cons a rest ih =>
    intro s states ran
    obtain ⟨s', later, stepped, ranLater, rfl⟩ := runTrace_cons ran
    obtain ⟨tickets, final⟩ := ih s' later ranLater
    have nonempty : later ≠ [] := List.ne_nil_of_mem (runTrace_head ranLater)
    simp only [fetched, stepped]
    rw [List.getLast?_cons, List.getLast?_eq_getLast later nonempty] at *
    rcases step_cursor stepped with ⟨fetch, advanced⟩ | ⟨none, kept⟩
    · rw [fetch, Option.toList_some, List.singleton_append, List.length_cons]
      rw [advanced] at tickets final
      refine ⟨congrArg (List.cons s.core.rrIdx) tickets, fun last mem => ?_⟩
      rw [final last mem, Function.iterate_succ_apply]
    · rw [none, Option.toList_none, List.nil_append]
      rw [kept] at tickets final
      exact ⟨tickets, final⟩

theorem iterate_succ_toNat (a : UInt32) (k : Nat) :
    ((· + 1)^[k] a).toNat = (a.toNat + k) % 4294967296 := by
  induction k with
  | zero => exact (Nat.mod_eq_of_lt a.toNat_lt_size).symm
  | succ k ih =>
    rw [Function.iterate_succ_apply', rrIdx_succ_toNat, ih]
    omega

end UltraBalancer.Concurrent
