import Mathlib.Logic.Function.Basic
import Mathlib.Data.List.Basic

/-!
The data of the advanced core, `lb_core_advanced.c`: its status codes, the backend record,
the core object and the C library calls the core makes on them. The header
`core/loadbalancer.h`, which declares `backend_t` and `lb_algorithm_t`, is not among the
sources; what the core needs of it is taken from the specification and marked so.
-/

namespace UltraBalancer

/-- `MAX_BACKENDS`, the length of the core's `backends` array. -/
def MAX_BACKENDS : Nat := 256

/-- `UINT32_MAX`, the first `minc` of the least-connections scan. -/
def UINT32_MAX : UInt32 := 4294967295

theorem uint32_lt_iff (a b : UInt32) : a < b ↔ a.toNat < b.toNat := Iff.rfl

theorem uint32_le_iff (a b : UInt32) : a ≤ b ↔ a.toNat ≤ b.toNat := Iff.rfl

theorem uint32_eq_iff (a b : UInt32) : a = b ↔ a.toNat = b.toNat :=
  ⟨congrArg _, UInt32.toNat.inj⟩

theorem toNat_le_UINT32_MAX (a : UInt32) : a.toNat ≤ UINT32_MAX.toNat := by
  have := a.toNat_lt_size
  exact Nat.le_of_lt_succ this

/-- `lb_status_t`. -/
inductive LbStatus
  | LB_OK
  | LB_ERR_NOMEM
  | LB_ERR_SYS
  | LB_ERR_INVAL
  | LB_ERR_STATE
  | LB_ERR_LIMIT
  | LB_ERR_EMPTY
  deriving DecidableEq, Repr

open LbStatus

/-- Modelled from the spec: the values of `backend_t`'s `state`, declared in the missing
`core/loadbalancer.h`; DRAINING is reserved and never selected. -/
inductive BackendState
  | BACKEND_DOWN
  | BACKEND_UP
  | BACKEND_DRAINING
  deriving DecidableEq, Repr

/-- Modelled from the spec: `lb_algorithm_t`, a tag with at least ROUNDROBIN and LEASTCONN,
declared in the missing `core/loadbalancer.h`. -/
inductive LbAlgorithm
  | LB_ALGO_ROUNDROBIN
  | LB_ALGO_LEASTCONN
  | other (tag : Nat)
  deriving DecidableEq, Repr

/-- A C string argument: the bytes before its terminating NUL, so none of them is NUL. -/
structure CString where
  bytes : List UInt8
  nulFree : 0 ∉ bytes
  deriving DecidableEq

/-- Modelled from the spec: `sizeof(b->host)`. The spec gives `backend_t` a `host[≤256]`
buffer; the header that fixes it is missing, and we take the bound. -/
def HOST_SIZE : Nat := 256

/-- `strncpy(dest, src, n)`: the first `n` bytes of `dest` become `src` up to its NUL,
padded with NUL bytes; the bytes of `dest` from `n` on are kept. -/
def strncpy (dest : List UInt8) (src : CString) (n : Nat) : List UInt8 :=
  src.bytes.take n ++ List.replicate (n - src.bytes.length) 0 ++ dest.drop n

/-- The string a NUL-terminated buffer holds: its bytes up to the first NUL. -/
def cString (buffer : List UInt8) : List UInt8 :=
  buffer.takeWhile (· != 0)

theorem strncpy_zeroed_eq (size n : Nat) (src : CString) :
    strncpy (List.replicate size 0) src n =
      src.bytes.take n ++ List.replicate (n - src.bytes.length + (size - n)) 0 := by
  simp [strncpy, List.drop_replicate, List.append_assoc]

section ZeroedBuffer
variable (size n : Nat) (src : CString) (fits : n < size)
include fits

theorem strncpy_zeroed_length : (strncpy (List.replicate size 0) src n).length = size := by
  rw [strncpy_zeroed_eq size n src]
  simp only [List.length_append, List.length_take, List.length_replicate]
  omega

theorem strncpy_zeroed_getLast : (strncpy (List.replicate size 0) src n).getLast? = some 0 := by
  rw [strncpy_zeroed_eq size n src, List.getLast?_append, List.getLast?_replicate]
  simp only [if_neg (show n - src.bytes.length + (size - n) ≠ 0 by omega), Option.or_some]

end ZeroedBuffer

theorem cString_strncpy_zeroed (size n : Nat) (src : CString) :
    cString (strncpy (List.replicate size 0) src n) = src.bytes.take n := by
  have nonzero : ∀ byte ∈ src.bytes.take n, (byte != 0) = true := fun byte mem => by
    have := src.nulFree
    have := List.mem_of_mem_take mem
    simp only [bne_iff_ne, ne_eq]
    rintro rfl
    contradiction
  rw [strncpy_zeroed_eq size n src, cString, List.takeWhile_append_of_pos nonzero,
    List.takeWhile_replicate]
  simp

/-- `backend_t`, with the fields the core reads or writes. Its spinlock is tracked as a
resource (`Effect`), the only thing the core does with it. -/
structure Backend where
  host : List UInt8
  port : UInt16
  weight : UInt32
  state : BackendState
  activeConns : UInt32
  sockfd : Int
  deriving DecidableEq, Repr

/-- The `cfg` block of `lb_core`. -/
structure LbConfig where
  connectTimeoutMs : UInt32
  readTimeoutMs : UInt32
  writeTimeoutMs : UInt32
  keepaliveTimeoutMs : UInt32
  healthCheckIntervalMs : UInt32
  maxConnections : UInt32
  tcpNodelay : Bool
  soReuseport : Bool
  deferAccept : Bool
  deriving DecidableEq, Repr

/-- The `select` callback a strategy binds. -/
inductive SelectFn
  | stratLeastconnSelect
  | stratRrSelect
  deriving DecidableEq, Repr

/-- `lb_strategy_t`. `init` is what the `init` callback returns (`none` for a NULL
callback). The `teardown` of both strategies does nothing and is left out. -/
structure LbStrategy where
  name : String
  init : Option LbStatus
  select : SelectFn
  deriving DecidableEq, Repr

/-- `lb_thread_pool_t`; `threads` says whether the identity array pointer is non-NULL. -/
structure LbThreadPool where
  threads : Bool
  nthreads : Nat
  running : Bool
  deriving DecidableEq, Repr

/-- `lb_core_t`. `backends i` is the pointer in slot `i`, given as the record it points to.
The C array ends at slot `MAX_BACKENDS - 1`, and a store to `backends[i]` past it writes over
`rr_idx`, `algorithm` and the fields after them; the map is unbounded so that such a store is
seen, but what it overwrites is not reproduced, and results over runs that go on after one
are stated for runs that make none. `backendCount` is a `uint32_t` that stays far below
`2^32` in every run of the model. -/
structure LbCore where
  port : UInt16
  running : Bool
  epfd : Int
  backendCount : Nat
  backends : Nat → Option Backend
  rrIdx : UInt32
  algorithm : LbAlgorithm
  cfg : LbConfig
  mem : Bool
  memSize : Nat
  backendsLock : Bool
  strategy : LbStrategy
  tpool : LbThreadPool

/-- The store `lb->backends[i] = b`. -/
def LbCore.store (lb : LbCore) (i : Nat) (b : Backend) : LbCore :=
  { lb with backends := Function.update lb.backends i (some b) }

@[simp] theorem LbCore.store_backends (lb : LbCore) (i : Nat) (b : Backend) :
    (lb.store i b).backends = Function.update lb.backends i (some b) := rfl

@[simp] theorem LbCore.store_backendCount (lb : LbCore) (i : Nat) (b : Backend) :
    (lb.store i b).backendCount = lb.backendCount := rfl

@[simp] theorem LbCore.store_rrIdx (lb : LbCore) (i : Nat) (b : Backend) :
    (lb.store i b).rrIdx = lb.rrIdx := rfl

@[simp] theorem LbCore.store_backendsLock (lb : LbCore) (i : Nat) (b : Backend) :
    (lb.store i b).backendsLock = lb.backendsLock := rfl

/-- Whether a slot holds a backend whose `state` is `BACKEND_UP`:
`b && atomic_load(&b->state) == BACKEND_UP`. -/
def isUp : Option Backend → Bool
  | some b => b.state == .BACKEND_UP
  | none => false

/-- Whether slot `i` holds an UP backend. -/
def slotUp (lb : LbCore) (i : Nat) : Bool := isUp (lb.backends i)

/-- What the core acquires and must release. A backend and its spinlock are named by
the slot the backend is stored in. -/
inductive Resource
  | core
  | epollFd
  | backendsLock
  | arena
  | workerIds
  | backendRecord (slot : Nat)
  | backendLock (slot : Nat)
  deriving DecidableEq, Repr

/-- An acquisition or a release, as the core performs them. -/
inductive Effect
  | acquire (resource : Resource)
  | release (resource : Resource)
  deriving DecidableEq, Repr

/-- The resource an effect acts on. -/
def Effect.resource : Effect → Resource
  | .acquire r => r
  | .release r => r

end UltraBalancer
