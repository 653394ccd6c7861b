import Mathlib.Data.BitVec

/-!
The listening endpoint: `lb_set_nb_tcp_opts` and `lb_bind_listen`. The system answers each
call with the C `int` it returns. The `setsockopt` results are or-ed into one status, and a
failure after `socket` closes the descriptor before `lb_bind_listen` returns -1.
-/

namespace UltraBalancer.Listen

/-- The options `lb_set_nb_tcp_opts` sets. `SO_REUSEPORT` and `TCP_NODELAY` are taken as
defined, as on Linux. -/
inductive SockOpt
  | SO_REUSEADDR
  | SO_REUSEPORT
  | TCP_NODELAY
  deriving DecidableEq, Repr

/-- A system call of `lb_bind_listen`. `socket` asks for a non-blocking, close-on-exec TCP/IPv4
socket; `bind` binds it to `0.0.0.0:port`; `listen` uses the backlog `SOMAXCONN`. -/
inductive SockCall
  | socket
  | setsockopt (opt : SockOpt)
  | bind (port : UInt16)
  | listen
  | close
  deriving DecidableEq, Repr

/-- What the system calls return. -/
structure ListenEnv where
  socket : Int
  reuseaddr : BitVec 32
  reuseport : BitVec 32
  nodelay : BitVec 32
  bind : Int
  listen : Int

/-- `lb_set_nb_tcp_opts(fd, reuseport, nodelay)`: `rv`, the or of the `setsockopt` results,
and the calls made. -/
def lbSetNbTcpOpts (env : ListenEnv) (reuseport nodelay : Bool) : BitVec 32 × List SockCall :=
  let rv := 0 ||| env.reuseaddr
  let rv := if reuseport then rv ||| env.reuseport else rv
  let rv := if nodelay then rv ||| env.nodelay else rv
  (rv, [.setsockopt .SO_REUSEADDR] ++ (if reuseport then [.setsockopt .SO_REUSEPORT] else []) ++
    (if nodelay then [.setsockopt .TCP_NODELAY] else []))

/-- `lb_bind_listen(port, reuseport, nodelay)`: the descriptor, or -1, and the calls made. -/
def lbBindListen (port : UInt16) (reuseport nodelay : Bool) (env : ListenEnv) :
    Int × List SockCall :=
  if env.socket < 0 then (-1, [.socket])
  else
    let opts := lbSetNbTcpOpts env reuseport nodelay
    if opts.1 ≠ 0 then (-1, .socket :: opts.2 ++ [.close])
    else if env.bind ≠ 0 then (-1, .socket :: opts.2 ++ [.bind port, .close])
    else if env.listen ≠ 0 then (-1, .socket :: opts.2 ++ [.bind port, .listen, .close])
    else (env.socket, .socket :: opts.2 ++ [.bind port, .listen])

end UltraBalancer.Listen
