import UltraBalancer.Concurrent.Cursor
import Mathlib.Data.List.Count

/-!
Round robin across threads. On a core whose `N` slots all hold UP backends, with no add and no
environment store, a round-robin select makes one try: it fetches a cursor value `v` and
returns slot `v mod N`. Whichever threads run and however their steps interleave, each thread's
returns are, in order, its own fetched values modulo `N`; once every fetch is answered, the
returns are the fetched values modulo `N` up to order, and since the fetched values are
consecutive (`fetched_iterate`), `k * N` fetches that do not wrap the cursor return every slot
exactly `k` times.
-/

namespace UltraBalancer.Concurrent
open LbStatus BackendState RoundRobin

/-- Whether an action may occur in a run of selects: no add starts and the environment stores
nothing. -/
def selectsOnly : Action → Bool
  | .start _ (.addBackend ..) => false
  | .start _ _ | .run .. => true
  | .mark .. | .setConns .. => false

/-- The cursor value a thread at `pc` reads in its step. -/
def Pc.fetchRead (lb : LbCore) : Pc → List UInt32
  | .rrFetch _ => [lb.rrIdx]
  | _ => []

/-- The slot a round-robin select returns in a step from `pc` to `pc'`. -/
def rrReturned : Pc → Pc → List Nat
  | .rrState .., .selectDone (some i) => [i]
  | _, _ => []

/-- The fetch an action makes, with its thread. -/
def fetchEvent (s : Sys) : Action → List (Nat × UInt32)
  | .run t _ => ((s.pcs t).fetchRead s.core).map (t, ·)
  | _ => []

/-- The slot a round-robin select returns in the step from `s` to `s'`, with its thread. -/
def returnEvent (s s' : Sys) : Action → List (Nat × Nat)
  | .run t _ => (rrReturned (s.pcs t) (s'.pcs t)).map (t, ·)
  | _ => []

/-- The fetches of a run with their threads, up to the first action that cannot happen. -/
def fetches (s : Sys) : List Action → List (Nat × UInt32)
  | [] => []
  | a :: rest =>
    match step s a with
    | some s' => fetchEvent s a ++ fetches s' rest
    | none => []

/-- The slots the round-robin selects of a run return, with their threads. -/
def rrReturns (s : Sys) : List Action → List (Nat × Nat)
  | [] => []
  | a :: rest =>
    match step s a with
    | some s' => returnEvent s s' a ++ rrReturns s' rest
    | none => []

/-- Thread `t`'s share of a list of events, in order. -/
def byThread {α : Type} (t : Nat) (events : List (Nat × α)) : List α :=
  (events.filter fun p => p.1 == t).map Prod.snd

@[simp] theorem byThread_nil {α : Type} (t : Nat) : byThread t ([] : List (Nat × α)) = [] := rfl

@[simp] theorem byThread_append {α : Type} (t : Nat) (l l' : List (Nat × α)) :
    byThread t (l ++ l') = byThread t l ++ byThread t l' := by
  simp [byThread]

theorem byThread_tag {α : Type} (t u : Nat) (l : List α) :
    byThread u (l.map (t, ·)) = if t = u then l else [] := by
  by_cases same : t = u <;> simp [byThread, List.filter_map, Function.comp_def, same]

theorem byThread_mapSnd {α β : Type} (f : α → β) (t : Nat) (events : List (Nat × α)) :
    byThread t (events.map fun p => (p.1, f p.2)) = (byThread t events).map f := by
  simp [byThread, List.filter_map, Function.comp_def]

/-- A tagged event is counted by its thread's share (counted by decidable equality, as
`List.subperm_ext_iff` counts). -/
theorem count_tagged {α : Type} [DecidableEq α] (u : Nat) (j : α) :
    ∀ events : List (Nat × α),
      @List.count _ instBEqOfDecidableEq (u, j) events = (byThread u events).count j
  | [] => rfl
  | (t, x) :: rest => by
    by_cases same : t = u
    · subst same
      by_cases hit : x = j
      · subst hit
        simp [byThread, List.count_cons, BEq.beq, count_tagged t x rest]
      · simp [byThread, List.count_cons, BEq.beq, hit, count_tagged t j rest]
    · simp [byThread, List.count_cons, BEq.beq, same, count_tagged u j rest]

/-- Tagged lists compare thread by thread. -/
theorem subperm_of_byThread {α : Type} [DecidableEq α] {l l' : List (Nat × α)}
    (shares : ∀ u, (byThread u l).Subperm (byThread u l')) : l.Subperm l' :=
  List.subperm_ext_iff.mpr fun ⟨u, j⟩ _ => by
    rw [count_tagged, count_tagged]
    exact (shares u).count_le j

theorem fetchEvent_snd (s : Sys) (a : Action) :
    (fetchEvent s a).map Prod.snd = (fetchOf s a).toList := by
  cases a with
  | run t choice =>
    simp only [fetchEvent, fetchOf, List.map_map]
    cases s.pcs t <;> rfl
  | _ => rfl

theorem fetches_snd (acts : List Action) :
    ∀ s : Sys, (fetches s acts).map Prod.snd = fetched s acts := by
  induction acts with
  | nil => intro s; rfl
  | cons a rest ih =>
    intro s
    cases stepped : step s a with
    | none => simp only [fetches, fetched, stepped, List.map_nil]
    | some s' => simp only [fetches, fetched, stepped, List.map_append, fetchEvent_snd, ih]

/-- What a round-robin select at `pc` owes, fetched and not yet returned: its cursor value
modulo `n`, then the slot it reads. -/
def Pc.rrOwed (n : Nat) : Pc → List Nat
  | .rrMod _ v => [v.toNat % n]
  | .rrSlot _ idx | .rrState _ idx => [idx]
  | _ => []

theorem rrOwed_returned (n : Nat) {pc : Pc} (returned : pc.returned) : pc.rrOwed n = [] := by
  cases pc <;> first | rfl | cases returned

/-- A round-robin select over `n` slots is in its first try, and a slot it reads is one of them. -/
def FirstTry (n : Nat) : Pc → Prop
  | .rrTest tries | .rrFetch tries | .rrMod tries _ => tries = 0
  | .rrSlot tries idx | .rrState tries idx => tries = 0 ∧ idx < n
  | _ => True

/-- A core whose slots in use, at least one and within the array, all hold UP backends. -/
structure AllUp (lb : LbCore) : Prop where
  positive : 0 < lb.backendCount
  bounded : lb.backendCount ≤ MAX_BACKENDS
  up : ∀ i < lb.backendCount, ∃ b, lb.backends i = some b ∧ b.state = BACKEND_UP

/-- A select's step on such a core keeps it in its first try, and moves what it owes: a fetch
adds the value read, modulo the count, and a return pays the slot. -/
theorem threadStep_owed {lb lb' : LbCore} {choice : Bool} {pc pc' : Pc} {obs : List Obs}
    (up : AllUp lb) (first : FirstTry lb.backendCount pc) (notAdding : pc.adding = false)
    (moved : threadStep lb choice pc = some (lb', pc', obs)) :
    FirstTry lb.backendCount pc' ∧
      pc.rrOwed lb.backendCount ++ (pc.fetchRead lb).map (fun v => v.toNat % lb.backendCount) =
        rrReturned pc pc' ++ pc'.rrOwed lb.backendCount := by
  have nonzero : lb.backendCount ≠ 0 := Nat.pos_iff_ne_zero.mp up.positive
  cases pc with
  | rrStart =>
    cases moved
    simp only [if_neg nonzero]
    exact ⟨rfl, rfl⟩
  | rrTest tries =>
    obtain rfl : tries = 0 := first
    cases moved
    simp only [if_pos up.positive]
    exact ⟨rfl, rfl⟩
  | rrFetch tries =>
    cases moved
    exact ⟨first, rfl⟩
  | rrMod tries v =>
    cases moved
    simp only [if_neg nonzero]
    exact ⟨⟨first, Nat.mod_lt _ up.positive⟩, rfl⟩
  | rrSlot tries idx =>
    obtain ⟨zero, inRange⟩ := first
    obtain ⟨b, slot, -⟩ := up.up idx inRange
    have within : ¬MAX_BACKENDS ≤ idx := Nat.not_le.mpr (Nat.lt_of_lt_of_le inRange up.bounded)
    simp only [threadStep, if_neg within, slot, Option.isSome_some, if_true] at moved
    cases moved
    exact ⟨⟨zero, inRange⟩, rfl⟩
  | rrState tries idx =>
    obtain ⟨b, slot, upb⟩ := up.up idx first.2
    simp only [threadStep, slot, if_pos upb] at moved
    cases moved
    exact ⟨trivial, rfl⟩
  | lcTest | lcSlot | lcState | lcConns =>
    simp only [threadStep] at moved
    (try split at moved) <;> cases moved <;> (try split) <;> exact ⟨trivial, rfl⟩
  | addCheck | addAlloc | addLock | addFirst | addSecond | addUnlock => cases notAdding
  | idle | addDone | selectDone | fault => cases moved

/-- What holds along a run of selects from `lb`: the count and the slots are `lb`'s, no thread
is inside an add, and every round-robin select is in its first try. -/
structure FairInv (lb : LbCore) (s : Sys) : Prop where
  count : s.core.backendCount = lb.backendCount
  slots : s.core.backends = lb.backends
  notAdding : ∀ t, (s.pcs t).adding = false
  firstTry : ∀ t, FirstTry lb.backendCount (s.pcs t)

/-- A thread moving to a position outside any add and in its first try keeps the invariant,
while the count and the slots stay `lb`'s. -/
theorem FairInv.update {lb : LbCore} {s : Sys} (inv : FairInv lb s) {core : LbCore}
    (count : core.backendCount = lb.backendCount) (slots : core.backends = lb.backends) {t : Nat}
    {pc : Pc} (notAdding : pc.adding = false) (first : FirstTry lb.backendCount pc)
    (logs : Nat → List Obs) : FairInv lb ⟨core, Function.update s.pcs t pc, logs⟩ :=
  ⟨count, slots,
    (Function.forall_update_iff _ fun _ (pc : Pc) => pc.adding = false).mpr
      ⟨notAdding, fun u _ => inv.notAdding u⟩,
    (Function.forall_update_iff _ fun _ (pc : Pc) => FirstTry lb.backendCount pc).mpr
      ⟨first, fun u _ => inv.firstTry u⟩⟩

section
variable {lb : LbCore} (up : AllUp lb)
include up

/-- A step of a run of selects keeps the invariant and, for every thread, moves what it owes by
what it fetched and returned. -/
theorem fairInv_step {s s' : Sys} {a : Action} (inv : FairInv lb s) (only : selectsOnly a)
    (moved : step s a = some s') :
    FairInv lb s' ∧ ∀ u, (s.pcs u).rrOwed lb.backendCount ++
        (byThread u (fetchEvent s a)).map (fun v => v.toNat % lb.backendCount) =
      byThread u (returnEvent s s' a) ++ (s'.pcs u).rrOwed lb.backendCount := by
  cases a with
  | start t call =>
    obtain ⟨returned, rfl⟩ := step_start moved
    have began : call.begin.adding = false ∧ FirstTry lb.backendCount call.begin ∧
        call.begin.rrOwed lb.backendCount = [] := by
      cases call with
      | addBackend => cases only
      | rrSelect | leastconnSelect => exact ⟨rfl, trivial, rfl⟩
    refine ⟨inv.update inv.count inv.slots began.1 began.2.1 _, fun u => ?_⟩
    simp only [fetchEvent, returnEvent, byThread_nil, List.map_nil, List.append_nil,
      List.nil_append, Function.update_apply]
    split
    · next same => rw [same, rrOwed_returned _ returned, began.2.2]
    · rfl
  | run t choice =>
    obtain ⟨core, pc, obs, stepped, rfl⟩ := step_run moved
    have current : AllUp s.core := ⟨inv.count ▸ up.positive, inv.count ▸ up.bounded,
      fun i below => inv.slots ▸ up.up i (inv.count ▸ below)⟩
    have notAdding := inv.notAdding t
    obtain ⟨first, owed⟩ := threadStep_owed current (inv.count ▸ inv.firstTry t) notAdding stepped
    rw [inv.count] at first owed
    have kept := coreAfter_keeps s.core notAdding
    rw [← threadStep_core stepped] at kept
    have notAdding' : pc.adding = false := Bool.eq_false_iff.mpr fun entered =>
      Bool.false_ne_true (notAdding.symm.trans (threadStep_adding stepped entered))
    refine ⟨inv.update (kept.1.trans inv.count) (kept.2.trans inv.slots) notAdding' first _,
      fun u => ?_⟩
    simp only [fetchEvent, returnEvent, byThread_tag, Function.update_same]
    by_cases same : t = u
    · subst same
      simpa only [if_pos rfl, Function.update_same] using owed
    · simp only [if_neg same, Function.update_noteq (Ne.symm same), List.map_nil, List.append_nil,
        List.nil_append]
  | mark | setConns => cases only

/-- Over a run of selects, for every thread: what it owed at the start plus what it fetched,
modulo the count, is what it returned plus what it owes at the end. -/
theorem owed_run (acts : List Action) (selects : ∀ a ∈ acts, selectsOnly a) :
    ∀ s, FairInv lb s → ∃ last : Sys, ∀ u, (s.pcs u).rrOwed lb.backendCount ++
        (byThread u (fetches s acts)).map (fun v => v.toNat % lb.backendCount) =
      byThread u (rrReturns s acts) ++ (last.pcs u).rrOwed lb.backendCount := by
  induction acts with
  | nil => exact fun s _ => ⟨s, fun u => by simp [fetches, rrReturns]⟩
  | cons a rest ih =>
    intro s inv
    simp only [fetches, rrReturns]
    cases stepped : step s a with
    | none => exact ⟨s, fun u => by simp⟩
    | some s' =>
      obtain ⟨inv', owed⟩ := fairInv_step up inv (selects a (List.mem_cons_self a rest)) stepped
      obtain ⟨last, owed'⟩ := ih (fun b mem => selects b (List.mem_cons_of_mem a mem)) s' inv'
      refine ⟨last, fun u => ?_⟩
      simp only [byThread_append, List.map_append, ← List.append_assoc, owed u]
      simp only [List.append_assoc, owed' u]

end

/-- `n` consecutive numbers from `c + m`, modulo `n`: the slots in cyclic order from there. -/
theorem residue_window (n c m : Nat) :
    ((List.range n).map fun i => (c + (m + i)) % n) = (List.range n).rotate (c + m) :=
  List.ext_getElem? fun i => by
    by_cases inside : i < n
    · rw [rotatedRange_getElem? _ _ _ inside, List.getElem?_map, List.getElem?_range inside,
        Option.map_some', Nat.add_assoc]
    · have beyond := Nat.le_of_not_lt inside
      simp [List.getElem?_eq_none, beyond]

/-- The residues modulo `n` of `k * n` consecutive numbers: each residue `k` times. -/
theorem count_residues (c k : Nat) {n j : Nat} (below : j < n) :
    ((List.range (k * n)).map fun i => (c + i) % n).count j = k := by
  induction k with
  | zero => simp
  | succ k ih =>
    have once : ((List.range n).rotate (c + k * n)).count j = 1 :=
      List.count_eq_one_of_mem (List.nodup_rotate.mpr (List.nodup_range n))
        (List.mem_rotate.mpr (List.mem_range.mpr below))
    rw [Nat.succ_mul, List.range_add, List.map_append, List.count_append, ih, List.map_map,
      Function.comp_def, residue_window, once]

/-- Round robin under any interleaving of selects, with every slot in use holding an UP backend.
Each thread's returns are, in order, a prefix of its fetched cursor values modulo the count `N`.
Once every fetch is answered, the returns are the fetched values modulo `N` up to order; and
when there were `k * N` fetches and the cursor did not wrap, or `N` divides `2^32`, every slot
was returned exactly `k` times. -/
theorem rr_concurrent_fair (lb : LbCore) (up : AllUp lb) (acts : List Action)
    (selects : ∀ a ∈ acts, selectsOnly a) (states : List Sys)
    (ran : runTrace (idleOn lb) acts = some states) :
    (∀ t, List.IsPrefix (byThread t (rrReturns (idleOn lb) acts))
      ((byThread t (fetches (idleOn lb) acts)).map fun v => v.toNat % lb.backendCount)) ∧
    ((rrReturns (idleOn lb) acts).length = (fetched (idleOn lb) acts).length →
      ((rrReturns (idleOn lb) acts).map Prod.snd).Perm
        ((fetched (idleOn lb) acts).map fun v => v.toNat % lb.backendCount) ∧
      ∀ k, (fetched (idleOn lb) acts).length = k * lb.backendCount →
        (lb.backendCount ∣ 4294967296 ∨ lb.rrIdx.toNat + k * lb.backendCount ≤ 4294967296) →
        ∀ j < lb.backendCount, ((rrReturns (idleOn lb) acts).map Prod.snd).count j = k) := by
  obtain ⟨last, owed⟩ := owed_run up acts selects (idleOn lb) ⟨rfl, rfl, fun _ => rfl, fun _ => trivial⟩
  have shares : ∀ u, byThread u (rrReturns (idleOn lb) acts) <+:
      (byThread u (fetches (idleOn lb) acts)).map fun v => v.toNat % lb.backendCount :=
    fun u => ⟨_, (owed u).symm⟩
  refine ⟨shares, fun answered => ?_⟩
  -- per thread no more returns than fetches of each slot, and as many in all
  have sub : (rrReturns (idleOn lb) acts).Subperm
      ((fetches (idleOn lb) acts).map fun p => (p.1, p.2.toNat % lb.backendCount)) := by
    refine subperm_of_byThread fun u => ?_
    rw [byThread_mapSnd fun v : UInt32 => v.toNat % lb.backendCount]
    exact (shares u).sublist.subperm
  have perm := (sub.perm_of_length_le (le_of_eq (by
    rw [List.length_map, answered, ← fetches_snd, List.length_map]))).map Prod.snd
  rw [List.map_map] at perm
  replace perm : ((rrReturns (idleOn lb) acts).map Prod.snd).Perm
      ((fetched (idleOn lb) acts).map fun v => v.toNat % lb.backendCount) := by
    rw [← fetches_snd, List.map_map]
    exact perm
  refine ⟨perm, fun k fetchedAll noWrap j below => ?_⟩
  have tickets := (fetched_iterate acts _ states ran).1
  rw [perm.count_eq, tickets, fetchedAll, ← List.range_map_iterate, List.map_map]
  have agree : ∀ i ∈ List.range (k * lb.backendCount),
      ((· + 1)^[i] lb.rrIdx).toNat % lb.backendCount = (lb.rrIdx.toNat + i) % lb.backendCount :=
    fun i mem => by
      rw [iterate_succ_toNat]
      exact agree_of_noWrap noWrap _ (Nat.le_add_right _ i)
        (Nat.add_lt_add_left (List.mem_range.mp mem) _)
  have residues := count_residues lb.rrIdx.toNat k below
  rwa [← List.map_congr_left agree] at residues

/-- Two threads that each make three round-robin selects on three UP slots, their steps
alternating. -/
def pairedSelects : List Action :=
  (List.replicate 3 ([.start 0 .rrSelect, .start 1 .rrSelect] ++
    (List.replicate 6 [.run 0 false, .run 1 false]).flatten)).flatten

theorem rr_concurrent_fair_sample :
    ((rrReturns (idleOn (threeSlots 0 fun _ => true)) pairedSelects).map Prod.snd).count 0 = 2 := by
  obtain ⟨states, ran⟩ := Option.isSome_iff_exists.mp
    (show (runTrace (idleOn (threeSlots 0 fun _ => true)) pairedSelects).isSome by decide)
  exact ((rr_concurrent_fair _ ⟨by decide, by decide, fun i below => ⟨_, if_pos below, rfl⟩⟩ _
    (by decide) states ran).2 (by decide)).2 2 (by decide) (by decide) 0 (by decide)

end UltraBalancer.Concurrent
