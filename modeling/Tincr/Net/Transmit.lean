import Tincr.Net.Egress

/-!
One read of the device. Frames that come alone are sent at once; in a burst their sealed datagrams are
staged in the batch, which is shipped when the next one does not fit and once more at the end. A TSO
super that passes the gates of the fast path is sealed, staged and shipped in one go, through the
listener of the super, even what was staged before it: the run that was waiting leaves through the
wrong socket if it was staged for another listener.
-/

namespace Tincr.Net

abbrev DEVICE_DRAIN_CAP : ℕ := 64

structure Packet (Addr : Type) where
  sock : ℕ
  dst : Addr
  bytes : List UInt8
deriving DecidableEq

inductive Sent (Addr : Type)
  | batched (p : Packet Addr)
  | immediate (p : Packet Addr)

variable {Addr : Type}

def Datagram.packet (d : Datagram Addr) : Packet Addr := ⟨d.sock, d.dst, d.bytes⟩

structure Env where
  listeners : ℕ
  backend : Backend

/-- `staged` is not part of the daemon: it records what was staged, in order. -/
structure Tx (Addr : Type) where
  batch : TxBatch Addr
  live : Bool
  wire : List (Sent Addr)
  staged : List (Packet Addr)

/-- What `send_sptps_data_relay` is asked to send; `hot` if the address is cached and the record was
sealed in place. -/
structure SendReq (Addr : Type) where
  datagram : Datagram Addr
  relay : ℕ
  origlen : ℕ
  hot : Bool

structure TxTarget (Addr : Type) where
  dst : Addr
  sock : ℕ
  toNid : ℕ

structure Chunk where
  frame : Frame
  origlen : ℕ

namespace Tx

/-- Every system call succeeds; a run for a listener that is gone is dropped. -/
def sendAll (env : Env) (sock : ℕ) (e : EgressBatch Addr) : List (Sent Addr) :=
  if sock < env.listeners then (env.backend.sendBatch e).map fun bytes => .batched ⟨sock, e.dst, bytes⟩
  else []

/-- The run leaves through the listener it was staged for. -/
def shipTxBatch (env : Env) (σ : Tx Addr) : Tx Addr :=
  match σ.batch.take with
  | none => σ
  | some (e, sock, _, _) => { σ with wire := σ.wire ++ sendAll env sock e, batch := σ.batch.reset }

/-- The run leaves through the egress that `seal_super` was given. -/
def ship (env : Env) (egress : ℕ) (σ : Tx Addr) : Tx Addr :=
  match σ.batch.take with
  | none => σ
  | some (e, _, _, _) => { σ with wire := σ.wire ++ sendAll env egress e, batch := σ.batch.reset }

def stage (σ : Tx Addr) (d : Datagram Addr) (relay origlen : ℕ) : Tx Addr :=
  { σ with
    batch := σ.batch.stage d.dst d.sock relay origlen d.bytes
    staged := σ.staged ++ [d.packet] }

variable [DecidableEq Addr]

/-- The end of `send_sptps_data_relay`. -/
def send (env : Env) (σ : Tx Addr) (r : SendReq Addr) : Tx Addr :=
  let d := r.datagram
  if σ.live && r.hot then
    (if σ.batch.canCoalesce d.dst d.sock d.bytes.length then σ else shipTxBatch env σ).stage d r.relay
      r.origlen
  else if d.sock < env.listeners then { σ with wire := σ.wire ++ [.immediate d.packet] }
  else σ

def sealChunk (env : Env) (target : TxTarget Addr) (σ : Tx Addr) (c : Chunk) : Tx Addr :=
  let d : Datagram Addr := ⟨target.sock, target.dst, c.frame⟩
  (if σ.batch.canCoalesce d.dst d.sock d.bytes.length then σ else ship env target.sock σ).stage d
    target.toNid c.origlen

def sealSuper (env : Env) (target : TxTarget Addr) (chunks : List Chunk) (σ : Tx Addr) : Tx Addr :=
  ship env target.sock (chunks.foldl (sealChunk env target) σ)

end Tx

inductive Op (Addr : Type)
  | arm
  | send (r : SendReq Addr)
  | super (target : TxTarget Addr) (chunks : List Chunk)

/-- A result of `Device::drain`. The sends of a frame are those `forward_packet` makes for it. For a
super, `segments` are the sends of its segments on the slow path, or nothing if it does not split;
`probe` is the target of the fast path with the sealed segments, if its gates let the super through. -/
inductive Drain (Addr : Type)
  | empty
  | error
  | frames (sends : List (List (SendReq Addr)))
  | super (segments : Option (List (List (SendReq Addr)))) (probe : Option (TxTarget Addr × List Chunk))

/-- A super with more than one segment arms the batch, and takes the fast path if the listener of the
target is there. -/
def superOps (env : Env) (sends : List (List (SendReq Addr)))
    (probe : Option (TxTarget Addr × List Chunk)) : List (Op Addr) :=
  let slow := sends.flatten.map Op.send
  (if 1 < sends.length then [.arm] else []) ++
    match probe with
    | some (target, chunks) =>
      if 2 ≤ sends.length ∧ target.sock < env.listeners then [.super target chunks] else slow
    | none => slow

/-- The drain loop: it goes on only after a single frame, and after at most `DEVICE_DRAIN_CAP` reads. -/
def drainOps (env : Env) : ℕ → List (Drain Addr) → List (Op Addr)
  | _, [] => []
  | iters, d :: ds =>
    if iters < DEVICE_DRAIN_CAP then
      match d with
      | .empty => []
      | .error => []
      | .frames sends =>
        (if 1 < sends.length ∨ 1 < iters + 1 then [.arm] else []) ++ sends.flatten.map Op.send ++
          (if sends.length = DEVICE_DRAIN_CAP then []
          else if 1 < sends.length then []
          else drainOps env (iters + 1) ds)
      | .super (some sends) probe => superOps env sends probe
      | .super none _ => []
    else []

variable [DecidableEq Addr]

def Tx.step (env : Env) (σ : Tx Addr) : Op Addr → Tx Addr
  | .arm => { σ with live := true }
  | .send r => σ.send env r
  | .super target chunks => σ.sealSuper env target chunks

def Tx.run (env : Env) (σ : Tx Addr) (ops : List (Op Addr)) : Tx Addr := ops.foldl (Tx.step env) σ

def Tx.finish (env : Env) (σ : Tx Addr) : Tx Addr := { Tx.shipTxBatch env σ with live := false }

/-- Between reads the batch is empty and not live. -/
def Tx.start (batch : TxBatch Addr) : Tx Addr := ⟨batch, false, [], []⟩

def onDeviceRead (env : Env) (batch : TxBatch Addr) (drains : List (Drain Addr)) : Tx Addr :=
  ((Tx.start batch).run env (drainOps env 0 drains)).finish env

end Tincr.Net
