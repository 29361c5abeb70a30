import Darner.QueueStreams
import Darner.Request

/-! The server: connections, the queue map and the event loop. An event is one
callback of the loop, with the data or the error it is called with; between two
events each connection has at most one asynchronous operation pending. Queue
objects are named by address and are alive while the map, a stream or a waiter
refers to them; a connection with nothing pending is destructed. A handler
function is total here and its uncaught exceptions, which end the process, are
faults. -/

namespace Darner
open OrderedStore LabelledRuns

inductive Next where
  | readRequest
  | getOnWriteChunk
  | hangUp
deriving DecidableEq

/-- The asynchronous operation of a connection. -/
inductive Pending where
  /-- `async_read_until` a newline, for `parse_request`. -/
  | readUntil
  /-- `async_read` of at least so many more bytes, for `set_on_read_chunk`. -/
  | readChunk (atLeast : ℕ)
  | write (bytes : Bytes) (next : Next)
  /-- In the line of waiters of the queue at `address`. -/
  | wait (address node : ℕ)
  | closed
deriving DecidableEq

structure Handler where
  inBuf : Bytes := []
  req : Request := {}
  popStream : IQStream := {}
  pushStream : OQStream := {}
  pending : Pending := .readUntil

structure Stats where
  itemsEnqueued : ℕ := 0
  itemsDequeued : ℕ := 0
  connsOpened : ℕ := 0
  connsClosed : ℕ := 0
  cmdGets : ℕ := 0
  cmdSets : ℕ := 0

structure Server where
  chunkSize : ℕ
  dataPath : Bytes
  objects : List Queue
  /-- `queue_map`: the address of the queue registered under a name. -/
  queues : Store Bytes ℕ
  conns : List Handler
  stats : Stats

/-- Uncaught exceptions, and the use of an erased map entry in `flush_all`. -/
inductive Fault where
  | popAlreadyOpen
  | pushAlreadyOpen
  | cantOpenJournal
  | danglingEntry
deriving DecidableEq

/-- What an event gets from outside: the outcome of its journal calls, the byte
before an empty item, and the clock. -/
structure Env where
  io : Io
  stray : UInt8
  uptime : ℕ
  time : ℕ

inductive ServerEvent where
  | accept
  | recv (i : ℕ) (data : Bytes)
  | readDone (i : ℕ) (env : Env)
  | readFailed (i : ℕ) (env : Env)
  | writeDone (i : ℕ) (env : Env)
  | writeFailed (i : ℕ) (env : Env)
  | expire (address node : ℕ)
  | callback (address node : ℕ) (env : Env)

def Error.message : Error → Bytes
  | .ioError => ascii "Input/output error"
  | .eof => ascii "End of file"
  | .alreadyOpen => ascii "Already open"

def decimalText (n : ℕ) : Bytes := (Nat.toDigits 10 n).map fun c => UInt8.ofNat c.toNat

namespace Server

def conn (s : Server) (i : ℕ) : Handler := (s.conns[i]?).getD { pending := .closed }

def object (s : Server) (address : ℕ) : Queue := (s.objects[address]?).getD (.blank ∅ [])

def setConn (s : Server) (i : ℕ) (h : Handler) : Server := { s with conns := s.conns.set i h }

def setObject (s : Server) (address : ℕ) (q : Queue) : Server :=
  { s with objects := s.objects.set address q }

def setPending (s : Server) (i : ℕ) (pending : Pending) : Server :=
  s.setConn i { s.conn i with pending := pending }

def popOpen (s : Server) (i address : ℕ) : Except Error Bool × Server :=
  let (result, stream, q) := (s.conn i).popStream.open_ address (s.object address)
  (result, (s.setObject address q).setConn i { s.conn i with popStream := stream })

def popRead (s : Server) (i : ℕ) (io : Io) : Except Error Bytes × Server :=
  let stream := (s.conn i).popStream
  let (result, stream) := stream.read (s.object (stream.queue.getD 0)) io
  (result, s.setConn i { s.conn i with popStream := stream })

def popClose (s : Server) (i : ℕ) (erase ok : Bool) : Except Error Server :=
  match (s.conn i).popStream.queue with
  | none => .ok s
  | some address =>
    match (s.conn i).popStream.close (s.object address) erase ok with
    | .error e => .error e
    | .ok (stream, q) =>
      .ok ((s.setObject address q).setConn i { s.conn i with popStream := stream })

def pushOpen (s : Server) (i address chunksCount : ℕ) (sync : Bool) : Except Error Server :=
  match (s.conn i).pushStream.open_ address (s.object address) chunksCount sync with
  | (.error e, _, _) => .error e
  | (.ok (), stream, q) =>
    .ok ((s.setObject address q).setConn i { s.conn i with pushStream := stream })

def pushWrite (s : Server) (i : ℕ) (chunk : Bytes) (stray : UInt8) (io : Io) :
    Except Error Unit × Server :=
  match (s.conn i).pushStream.queue with
  | none => (.error .eof, s)
  | some address =>
    let (result, stream, q) := (s.conn i).pushStream.write (s.object address) chunk stray io
    (result, (s.setObject address q).setConn i { s.conn i with pushStream := stream })

def dropPush (s : Server) (i : ℕ) (ok : Bool) : Server :=
  match (s.conn i).pushStream.queue with
  | none => s
  | some address =>
    (s.setObject address ((s.conn i).pushStream.destruct (s.object address) ok)).setConn i
      { s.conn i with pushStream := {} }

def dropPop (s : Server) (i : ℕ) : Server :=
  match (s.conn i).popStream.queue with
  | none => s
  | some address =>
    (s.setObject address ((s.conn i).popStream.destruct (s.object address))).setConn i
      { s.conn i with popStream := {} }

/-- The destructor, which destroys the push stream before the pop stream. -/
def drop (s : Server) (i : ℕ) (ok : Bool) : Server :=
  let s := (s.dropPush i ok).dropPop i
  { s.setConn i { pending := .closed } with
    stats := { s.stats with connsClosed := s.stats.connsClosed + 1 } }

/-! The queue map. -/

/-- A destroyed queue lives on while a stream or a waiter holds it. -/
def live (s : Server) (address : ℕ) : Bool :=
  (∃ name ∈ s.queues.keys, s.queues.lookup name = some address) ||
  s.conns.any (fun h => h.popStream.queue = some address || h.pushStream.queue = some address) ||
  !(s.object address).waiters.isEmpty

def paths (s : Server) : List Bytes :=
  ((List.range s.objects.length).filter s.live).map fun address => (s.object address).path

def pathOf (s : Server) (name : Bytes) : Bytes := s.dataPath ++ 47 :: name

/-- A queue made under a name that has none. The journal of a live queue is locked. -/
def newQueue (s : Server) (name : Bytes) : Except Fault (ℕ × Server) :=
  if s.paths.contains (s.pathOf name) then .error .cantOpenJournal
  else .ok (s.objects.length,
    { s with objects := s.objects ++ [.blank ∅ (s.pathOf name)]
             queues := s.queues.insert name s.objects.length })

def queueAt (s : Server) (name : Bytes) : Except Fault (ℕ × Server) :=
  match s.queues.lookup name with
  | some address => .ok (address, s)
  | none => s.newQueue name

def eraseQueue (s : Server) (name : Bytes) (recreate : Bool) : Except Fault Server :=
  match s.queues.lookup name with
  | none => .ok s
  | some address =>
    let s := s.setObject address ((s.object address).destroy s.paths)
    let s := { s with queues := s.queues.erase name }
    if recreate then (s.newQueue name).map Prod.snd else .ok s

def reply (s : Server) (i : ℕ) (text : Bytes) (next : Next) : Server :=
  s.setPending i (.write text next)

def end_ (s : Server) (i : ℕ) (msg : String) : Server := s.reply i (ascii msg) .readRequest

def error (s : Server) (i : ℕ) (msg errorType : String) : Server :=
  s.reply i (ascii errorType ++ ascii " " ++ ascii msg ++ ascii "\r\n") .hangUp

def serverError (s : Server) (i : ℕ) (e : Error) : Server :=
  s.reply i (ascii "SERVER_ERROR " ++ e.message ++ ascii "\r\n") .hangUp

def statLine (name : String) (value : ℕ) : Bytes :=
  ascii "STAT " ++ ascii name ++ ascii " " ++ decimalText value ++ ascii "\r\n"

def statsText (stats : Stats) (env : Env) : Bytes :=
  statLine "uptime" env.uptime ++ statLine "time" env.time ++ ascii "STAT version 0.2.0\r\n" ++
    statLine "curr_items" (stats.itemsEnqueued - stats.itemsDequeued) ++
    statLine "total_items" stats.itemsEnqueued ++
    statLine "curr_connections" (stats.connsOpened - stats.connsClosed) ++
    statLine "total_connections" stats.connsOpened ++
    statLine "cmd_get" stats.cmdGets ++ statLine "cmd_set" stats.cmdSets

def queueStatsText (name : Bytes) (q : Queue) : Bytes :=
  let line := fun (what : String) (value : ℕ) =>
    ascii "STAT queue_" ++ name ++ ascii what ++ decimalText value ++ ascii "\r\n"
  line "_items " q.count ++ line "_waiters " q.waiters.length ++
    line "_open_transactions " q.itemsOpen

def queueNames (s : Server) : List Bytes := s.queues.keys.sort

def writeStats (s : Server) (i : ℕ) (env : Env) : Server :=
  let queues := s.queueNames.flatMap fun name =>
    queueStatsText name (s.object ((s.queues.lookup name).getD 0))
  s.reply i (statsText s.stats env ++ queues ++ ascii "END\r\n") .readRequest

def writeVersion (s : Server) (i : ℕ) : Server := s.end_ i "VERSION 0.2.0\r\n"

def destroy (s : Server) (i : ℕ) : Except Fault Server := do
  let s ← s.eraseQueue (s.conn i).req.queue false
  pure (s.end_ i "DELETED\r\n")

def flush (s : Server) (i : ℕ) : Except Fault Server := do
  let s ← s.eraseQueue (s.conn i).req.queue true
  pure (s.end_ i "END\r\n")

/-- The loop passes a reference into the entry that `erase` removes, and then
advances the iterator to it. -/
def flushAll (s : Server) (i : ℕ) : Except Fault Server :=
  if s.queues.keys = ∅ then .ok (s.end_ i "Flushed all queues.\r\n") else .error .danglingEntry

/-! The set loop. -/

def readNextChunk (s : Server) (i : ℕ) : Server :=
  let h := s.conn i
  let remaining := h.req.numBytes - h.pushStream.tell
  let required := if remaining > s.chunkSize then s.chunkSize else remaining + 2
  s.setPending i (.readChunk (required - h.inBuf.length))

def set (s : Server) (i : ℕ) : Except Fault Server := do
  let req := (s.conn i).req
  let (address, s) ← s.queueAt req.queue
  match s.pushOpen i address ((req.numBytes + s.chunkSize - 1) / s.chunkSize) req.setSync with
  | .error _ => .error .pushAlreadyOpen
  | .ok s => .ok (s.readNextChunk i)

/-- `set_on_read_chunk` from the write on. -/
def storeChunk (s : Server) (i : ℕ) (chunk : Bytes) (env : Env) : Server :=
  match s.pushWrite i chunk env.stray env.io with
  | (.error e, s) => s.serverError i e
  | (.ok (), s) =>
    if (s.conn i).pushStream.tell = (s.conn i).req.numBytes then
      { s with stats := { s.stats with itemsEnqueued := s.stats.itemsEnqueued + 1 } }.end_ i
        "STORED\r\n"
    else s.readNextChunk i

def setOnReadChunk (s : Server) (i : ℕ) (env : Env) : Server :=
  let h := s.conn i
  let remaining := h.req.numBytes - h.pushStream.tell
  if remaining ≤ s.chunkSize then
    -- last chunk! make sure it ends with \r\n
    if (h.inBuf.drop remaining).take 2 ≠ ascii "\r\n" then
      s.error i "bad data chunk" "CLIENT_ERROR"
    else
      (s.setConn i { h with inBuf := h.inBuf.drop (remaining + 2) }).storeChunk i
        (h.inBuf.take remaining) env
  else
    (s.setConn i { h with inBuf := h.inBuf.drop s.chunkSize }).storeChunk i
      (h.inBuf.take s.chunkSize) env

/-! The get loop. -/

def countDequeued (s : Server) : Server :=
  { s with stats := { s.stats with itemsDequeued := s.stats.itemsDequeued + 1 } }

/-- The item is read to its end: close it, unless the client wants it open, and
answer. A close that fails is not echoed, so the connection drops. -/
def getFinish (s : Server) (i : ℕ) (text : Bytes) (closeOk dropOk : Bool) : Server :=
  if (s.conn i).req.getOpen then s.countDequeued.reply i text .readRequest
  else
    match s.popClose i (!(s.conn i).req.getPeek) closeOk with
    | .error _ => s.drop i dropOk
    | .ok s => s.countDequeued.reply i text .readRequest

def valueHeader (name : Bytes) (size : ℕ) : Bytes :=
  ascii "VALUE " ++ name ++ ascii " 0 " ++ decimalText size ++ ascii "\r\n"

def getRead (s : Server) (i : ℕ) (env : Env) : Server :=
  match s.popRead i fun n => env.io (n + 1) with
  | (.error e, s) => s.serverError i e
  | (.ok buf, s) =>
    let stream := (s.conn i).popStream
    let header := valueHeader (s.conn i).req.queue stream.size
    if stream.tell = stream.size then
      s.getFinish i (header ++ buf ++ ascii "\r\nEND\r\n") (env.io 3) (env.io 4)
    else s.reply i (header ++ buf) .getOnWriteChunk

def getPop (s : Server) (i : ℕ) (env : Env) : Except Fault Server :=
  let req := (s.conn i).req
  if (req.getClose && !req.getOpen) || req.getAbort then .ok (s.end_ i "END\r\n")
  else do
    let (address, s) ← s.queueAt req.queue
    match s.popOpen i address with
    | (.error _, _) => .error .popAlreadyOpen
    | (.ok true, s) => .ok (s.getRead i env)
    | (.ok false, s) =>
      if req.waitMs ≠ 0 then
        let q := s.object address
        .ok ((s.setObject address (q.wait req.waitMs i)).setPending i (.wait address q.nextNode))
      else .ok (s.end_ i "END\r\n")

def get (s : Server) (i : ℕ) (env : Env) : Except Fault Server :=
  let req := (s.conn i).req
  if req.getAbort && (req.getOpen || req.getClose || req.getPeek) then
    .ok (s.error i "abort must be by itself" "CLIENT_ERROR")
  else if req.getPeek && req.getOpen then .ok (s.error i "cannot open and peek" "CLIENT_ERROR")
  else if req.getAbort || req.getClose then
    match s.popClose i req.getClose (env.io 0) with
    | .error e => .ok (s.serverError i e)
    | .ok s => s.getPop i env
  else if (s.conn i).popStream.queue.isSome then
    .ok (s.error i "close current item first" "CLIENT_ERROR")
  else s.getPop i env

def getOnWriteChunk (s : Server) (i : ℕ) (env : Env) : Server :=
  let stream := (s.conn i).popStream
  if stream.tell = stream.size then s.getFinish i (ascii "\r\nEND\r\n") (env.io 3) (env.io 4)
  else
    match s.popRead i fun n => env.io (n + 1) with
    | (.error _, s) => s.drop i (env.io 4)
    | (.ok buf, s) => s.reply i buf .getOnWriteChunk

/-! Requests. -/

def countGet (s : Server) : Server :=
  { s with stats := { s.stats with cmdGets := s.stats.cmdGets + 1 } }

def countSet (s : Server) : Server :=
  { s with stats := { s.stats with cmdSets := s.stats.cmdSets + 1 } }

def dispatch (s : Server) (i : ℕ) (env : Env) : Except Fault Server :=
  match (s.conn i).req.type with
  | .unset => .ok (s.drop i (env.io 4))
  | .stats => .ok (s.writeStats i env)
  | .version => .ok (s.writeVersion i)
  | .destroy => s.destroy i
  | .flush => s.flush i
  | .flushAll => s.flushAll i
  | .set => s.countSet.set i
  | .get => s.countGet.get i env

/-- The first `n` bytes of the buffer are a line. -/
def parseRequest (s : Server) (i n : ℕ) (env : Env) : Except Fault Server :=
  let h := s.conn i
  match Request.parse (h.inBuf.take n) with
  | none => .ok (s.error i "" "ERROR")
  | some req => (s.setConn i { h with req := req, inBuf := h.inBuf.drop n }).dispatch i env

/-! The event loop. -/

def capacity (s : Server) : ℕ := s.chunkSize + 2

def lineLength (buf : Bytes) : Option ℕ :=
  (buf.findIdx? (· == 10)).map (· + 1)

/-- Bytes arrive while the read of a connection needs more of them. -/
def recv (s : Server) (i : ℕ) (data : Bytes) : Server :=
  let h := s.conn i
  if h.inBuf.length + data.length ≤ s.capacity then
    match h.pending with
    | .readUntil =>
      if lineLength h.inBuf = none then s.setConn i { h with inBuf := h.inBuf ++ data } else s
    | .readChunk n =>
      if n > 0 then
        s.setConn i { h with inBuf := h.inBuf ++ data, pending := .readChunk (n - data.length) }
      else s
    | _ => s
  else s

/-- A read that has what it needs. A buffer that is full without a line is an error. -/
def readDone (s : Server) (i : ℕ) (env : Env) : Except Fault Server :=
  let h := s.conn i
  match h.pending with
  | .readUntil =>
    match lineLength h.inBuf with
    | some n => s.parseRequest i n env
    | none => .ok (if s.capacity ≤ h.inBuf.length then s.drop i (env.io 4) else s)
  | .readChunk n =>
    .ok (if n = 0 ∨ s.capacity ≤ h.inBuf.length then s.setOnReadChunk i env else s)
  | _ => .ok s

/-- End of file or an error on a read that needs more. -/
def readFailed (s : Server) (i : ℕ) (env : Env) : Server :=
  let h := s.conn i
  match h.pending with
  | .readUntil => if lineLength h.inBuf = none then s.drop i (env.io 4) else s
  | .readChunk n => if n > 0 then s.drop i (env.io 4) else s
  | _ => s

def writeDone (s : Server) (i : ℕ) (env : Env) : Server :=
  match (s.conn i).pending with
  | .write _ .readRequest => s.setPending i .readUntil
  | .write _ .getOnWriteChunk => s.getOnWriteChunk i env
  | .write _ .hangUp => s.drop i (env.io 4)
  | _ => s

def writeFailed (s : Server) (i : ℕ) (env : Env) : Server :=
  match (s.conn i).pending with
  | .write _ _ => s.drop i (env.io 4)
  | _ => s

def dueWaiter (s : Server) (address node : ℕ) : Option Waiter :=
  (s.object address).waiters.find? fun w => w.node = node && w.due

/-- `waiter_wakeup`, with `get_on_queue_return` as the callback. -/
def callback (s : Server) (address node : ℕ) (env : Env) : Except Fault Server :=
  match s.dueWaiter address node with
  | none => .ok s
  | some w =>
    let (q, success) := (s.object address).waiterWakeup node
    let s := s.setObject address q
    if success then s.get w.cb env else .ok (s.end_ w.cb "END\r\n")

def step (s : Server) : ServerEvent → Except Fault Server
  | .accept =>
    .ok { s with conns := s.conns ++ [{}]
                 stats := { s.stats with connsOpened := s.stats.connsOpened + 1 } }
  | .recv i data => .ok (s.recv i data)
  | .readDone i env => s.readDone i env
  | .readFailed i env => .ok (s.readFailed i env)
  | .writeDone i env => .ok (s.writeDone i env)
  | .writeFailed i env => .ok (s.writeFailed i env)
  | .expire address node =>
    .ok (s.setObject address ((s.object address).expireTimer node))
  | .callback address node env => s.callback address node env

def Step (s : Server) (event : ServerEvent) (s' : Server) : Prop := s.step event = .ok s'

def run (s : Server) : List ServerEvent → Except Fault Server
  | [] => .ok s
  | event :: events => do
    let s ← s.step event
    s.run events

theorem runs_of_run {s s' : Server} {events : List ServerEvent} (h : s.run events = .ok s') :
    Runs Step s events s' := by
  induction events generalizing s with
  | nil =>
    rw [← Except.ok.inj h]
    exact .nil s
  | cons event events ih =>
    obtain ⟨t, first, rest⟩ := bind_ok h
    exact .cons first (ih rest)

def runIf (guard : Server → ServerEvent → Bool) (s : Server) :
    List ServerEvent → Option Server
  | [] => some s
  | event :: events =>
    if guard s event then (s.step event).toOption.bind (·.runIf guard events) else none

theorem runs_of_runIf {guard : Server → ServerEvent → Bool} {s s' : Server}
    {events : List ServerEvent} (h : s.runIf guard events = some s') :
    Runs (Guarded (guard · · = true) Step) s events s' := by
  induction events generalizing s with
  | nil =>
    rw [← Option.some.inj h]
    exact .nil s
  | cons event events ih =>
    unfold runIf at h
    split at h
    case isTrue allowed =>
      obtain ⟨t, first, rest⟩ := Option.bind_eq_some_iff.mp h
      have step : s.Step event t := by
        unfold Step
        cases result : s.step event with
        | error fault =>
          rw [result] at first
          cases first
        | ok u =>
          rw [result] at first
          exact congrArg _ (Option.some.inj first)
      exact .cons ⟨allowed, step⟩ (ih rest)
    case isFalse => cases h

theorem conn_setConn_self {s : Server} {i : ℕ} (h : Handler) (there : i < s.conns.length) :
    (s.setConn i h).conn i = h := by
  simp [conn, setConn, there]

theorem conn_setConn_ne (s : Server) {i j : ℕ} (h : Handler) (ne : j ≠ i) :
    (s.setConn i h).conn j = s.conn j := by
  simp [conn, setConn, List.getElem?_set_ne (Ne.symm ne)]

theorem object_setObject_self {s : Server} {address : ℕ} (q : Queue)
    (there : address < s.objects.length) : (s.setObject address q).object address = q := by
  simp [object, setObject, there]

theorem object_setObject_ne (s : Server) {address other : ℕ} (q : Queue) (ne : other ≠ address) :
    (s.setObject address q).object other = s.object other := by
  simp [object, setObject, List.getElem?_set_ne (Ne.symm ne)]

theorem object_setConn (s : Server) (i : ℕ) (h : Handler) (address : ℕ) :
    (s.setConn i h).object address = s.object address := rfl

theorem conn_setObject_setConn {s : Server} {i : ℕ} (address : ℕ) (q : Queue) (h : Handler)
    (there : i < s.conns.length) : ((s.setObject address q).setConn i h).conn i = h := by
  simp [conn, setConn, setObject, there]

theorem setObject_beyond {s : Server} {address : ℕ} (q : Queue)
    (beyond : s.objects.length ≤ address) : s.setObject address q = s := by
  simp [setObject, List.set_eq_of_length_le beyond]

theorem object_setObject_cases (s : Server) (address : ℕ) (q : Queue) (other : ℕ) :
    (s.setObject address q).object other = s.object other ∨
    other = address ∧ (s.setObject address q).object other = q := by
  by_cases same : other = address
  · subst same
    by_cases there : other < s.objects.length
    · exact .inr ⟨rfl, object_setObject_self q there⟩
    · rw [setObject_beyond q (by omega)]
      exact .inl rfl
  · exact .inl (object_setObject_ne s q same)

theorem conn_congr {s t : Server} (conns : t.conns = s.conns) (i : ℕ) : t.conn i = s.conn i := by
  rw [conn, conn, conns]

@[simp] theorem setObject_same (s : Server) (address : ℕ) :
    s.setObject address (s.object address) = s := by
  by_cases there : address < s.objects.length
  · have same : s.objects.set address (s.object address) = s.objects := by
      simp [object, there]
    rw [setObject, same]
  · exact setObject_beyond _ (by omega)

@[simp] theorem setConn_same (s : Server) (i : ℕ) : s.setConn i (s.conn i) = s := by
  by_cases there : i < s.conns.length
  · have same : s.conns.set i (s.conn i) = s.conns := by
      simp [conn, there]
    rw [setConn, same]
  · rw [setConn, List.set_eq_of_length_le (by omega)]

theorem object_beyond {s : Server} {address : ℕ} (beyond : s.objects.length ≤ address) :
    s.object address = .blank ∅ [] := by
  simp [object, List.getElem?_eq_none beyond]

theorem object_all {s : Server} {P : Queue → Prop} (made : ∀ q ∈ s.objects, P q)
    (none : P (.blank ∅ [])) (address : ℕ) : P (s.object address) := by
  by_cases there : address < s.objects.length
  · exact made _ (by simp [object, there])
  · rw [object_beyond (by omega)]
    exact none

theorem waiter_there {s : Server} {address : ℕ} {w : Waiter}
    (mem : w ∈ (s.object address).waiters) : address < s.objects.length := by
  by_contra beyond
  rw [object_beyond (by omega)] at mem
  cases mem

theorem setObject_setObject (s : Server) (address : ℕ) (q q' : Queue) :
    (s.setObject address q).setObject address q' = s.setObject address q' := by
  simp [setObject]

theorem conn_beyond {s : Server} {i : ℕ} (beyond : s.conns.length ≤ i) :
    s.conn i = { pending := .closed } := by
  simp [conn, List.getElem?_eq_none beyond]

theorem conn_there {s : Server} {i : ℕ} (h : (s.conn i).pending ≠ .closed) :
    i < s.conns.length := by
  by_contra beyond
  exact h (by rw [conn_beyond (by omega)])

def withQueue (s : Server) (name : Bytes) : Server :=
  { s with objects := s.objects ++ [.blank ∅ (s.pathOf name)]
           queues := s.queues.insert name s.objects.length }

theorem newQueue_ok {s s' : Server} {name : Bytes} {address : ℕ}
    (h : s.newQueue name = .ok (address, s')) :
    address = s.objects.length ∧ s' = s.withQueue name := by
  unfold newQueue at h
  split at h
  · cases h
  · obtain ⟨rfl, rfl⟩ := Prod.mk.inj (Except.ok.inj h)
    exact ⟨rfl, rfl⟩

theorem object_withQueue_self (s : Server) (name : Bytes) :
    (s.withQueue name).object s.objects.length = .blank ∅ (s.pathOf name) := by
  simp [object, withQueue]

theorem object_withQueue_ne (s : Server) (name : Bytes) {address : ℕ}
    (ne : address ≠ s.objects.length) : (s.withQueue name).object address = s.object address := by
  simp only [object, withQueue]
  congr 1
  rcases Nat.lt_or_gt_of_ne ne with old | beyond
  · exact List.getElem?_append_left old
  · have length : (s.objects ++ [Queue.blank ∅ (s.pathOf name)]).length = s.objects.length + 1 :=
      List.length_append
    rw [List.getElem?_eq_none (by omega), List.getElem?_eq_none (by omega)]

theorem lookup_withQueue (s : Server) (name other : Bytes) :
    (s.withQueue name).queues.lookup other =
      if other = name then some s.objects.length else s.queues.lookup other :=
  lookup_insert_eq s.queues name other s.objects.length

theorem lookup_withQueue_old {s : Server} {name other : Bytes} {address : ℕ}
    (absent : s.queues.lookup name = none) (found : s.queues.lookup other = some address) :
    (s.withQueue name).queues.lookup other = some address := by
  rw [lookup_withQueue, if_neg]
  · exact found
  · rintro rfl
    rw [absent] at found
    cases found

theorem lookup_erase {queues : Store Bytes ℕ} {name other : Bytes} {address : ℕ}
    (found : (queues.erase name).lookup other = some address) :
    queues.lookup other = some address := by
  by_cases same : other = name
  · rw [same, Finmap.lookup_erase] at found
    cases found
  · rwa [Finmap.lookup_erase_ne same] at found

theorem queueAt_ok {s s' : Server} {name : Bytes} {address : ℕ}
    (h : s.queueAt name = .ok (address, s')) :
    (s.queues.lookup name = some address ∧ s' = s) ∨
    (s.queues.lookup name = none ∧ address = s.objects.length ∧ s' = s.withQueue name) := by
  unfold queueAt at h
  split at h
  case h_1 found =>
    obtain ⟨rfl, rfl⟩ := Prod.mk.inj (Except.ok.inj h)
    exact .inl ⟨found, rfl⟩
  case h_2 none =>
    exact .inr ⟨none, newQueue_ok h⟩

def withoutQueue (s : Server) (name : Bytes) (address : ℕ) : Server :=
  { s.setObject address ((s.object address).destroy s.paths) with queues := s.queues.erase name }

theorem eraseQueue_ok {s s' : Server} {name : Bytes} {recreate : Bool}
    (h : s.eraseQueue name recreate = .ok s') :
    s' = s ∨ ∃ address, s.queues.lookup name = some address ∧
      (s' = s.withoutQueue name address ∨ s' = (s.withoutQueue name address).withQueue name) := by
  unfold eraseQueue at h
  split at h
  · exact .inl (Except.ok.inj h).symm
  case h_2 address found =>
    refine .inr ⟨address, found, ?_⟩
    dsimp only at h
    split at h
    · change ((s.withoutQueue name address).newQueue name).map Prod.snd = .ok s' at h
      cases new : (s.withoutQueue name address).newQueue name with
      | error fault =>
        rw [new] at h
        cases h
      | ok pair =>
        rw [new] at h
        right
        rw [← Except.ok.inj h]
        exact (newQueue_ok new).2
    · exact .inl (Except.ok.inj h).symm

theorem popOpen_cases (s : Server) (i address : ℕ) :
    ((s.conn i).popStream.queue.isSome ∧ s.popOpen i address = (.error .alreadyOpen, s)) ∨
    ((s.conn i).popStream.queue = none ∧ (s.object address).popBegin = none ∧
      s.popOpen i address = (.ok false, s)) ∨
    ((s.conn i).popStream.queue = none ∧ ∃ id q, (s.object address).popBegin = some (id, q) ∧
      s.popOpen i address = (.ok true, (s.setObject address q).setConn i
        { s.conn i with popStream := { queue := some address, id := id } })) := by
  unfold popOpen
  rcases (s.conn i).popStream.open_cases address (s.object address) with
    ⟨isOpen, h⟩ | ⟨closed, none, h⟩ | ⟨closed, id, q, pop, h⟩
  · refine .inl ⟨isOpen, ?_⟩
    simp only [h, setObject_same]
    exact congrArg _ (setConn_same s i)
  · refine .inr (.inl ⟨closed, none, ?_⟩)
    simp only [h, setObject_same]
    exact congrArg _ (setConn_same s i)
  · exact .inr (.inr ⟨closed, id, q, pop, by simp [h]⟩)

theorem popClose_ok {s s' : Server} {i : ℕ} {erase ok : Bool}
    (h : s.popClose i erase ok = .ok s') :
    ((s.conn i).popStream.queue = none ∧ s' = s) ∨
    ∃ address q, (s.conn i).popStream.queue = some address ∧
      (s.object address).popEnd erase (s.conn i).popStream.id (s.conn i).popStream.header ok =
        .ok q ∧
      s' = (s.setObject address q).setConn i
        { s.conn i with popStream := { (s.conn i).popStream with queue := none } } := by
  unfold popClose at h
  split at h
  case h_1 closed => exact .inl ⟨closed, (Except.ok.inj h).symm⟩
  case h_2 address isOpen =>
    split at h
    · cases h
    case h_2 stream q close =>
      rcases IQStream.close_ok close with ⟨closed, -, -⟩ | ⟨-, rfl, pop⟩
      · rw [isOpen] at closed
        cases closed
      · exact .inr ⟨address, q, isOpen, pop, (Except.ok.inj h).symm⟩

theorem destroy_ok {s s' : Server} {i : ℕ} (run : s.destroy i = .ok s') :
    ∃ t, s.eraseQueue (s.conn i).req.queue false = .ok t ∧ s' = t.end_ i "DELETED\r\n" := by
  obtain ⟨t, erased, run⟩ := bind_ok run
  exact ⟨t, erased, (Except.ok.inj run).symm⟩

theorem flush_ok {s s' : Server} {i : ℕ} (run : s.flush i = .ok s') :
    ∃ t, s.eraseQueue (s.conn i).req.queue true = .ok t ∧ s' = t.end_ i "END\r\n" := by
  obtain ⟨t, erased, run⟩ := bind_ok run
  exact ⟨t, erased, (Except.ok.inj run).symm⟩

theorem set_ok {s s' : Server} {i : ℕ} (run : s.set i = .ok s') :
    ∃ address t u, s.queueAt (s.conn i).req.queue = .ok (address, t) ∧
      t.pushOpen i address (((s.conn i).req.numBytes + t.chunkSize - 1) / t.chunkSize)
        (s.conn i).req.setSync = .ok u ∧ s' = u.readNextChunk i := by
  obtain ⟨⟨a, t⟩, found, run⟩ := bind_ok run
  refine ⟨a, t, ?_⟩
  dsimp only at run
  split at run
  · cases run
  case h_2 u opened => exact ⟨u, found, opened, (Except.ok.inj run).symm⟩

theorem getPop_ok {s s' : Server} {i : ℕ} {env : Env} (run : s.getPop i env = .ok s') :
    (∃ msg, s' = s.end_ i msg) ∨
    (((s.conn i).req.getClose && !(s.conn i).req.getOpen) = false ∧
      (s.conn i).req.getAbort = false) ∧
    ∃ address t, s.queueAt (s.conn i).req.queue = .ok (address, t) ∧
      (((t.popOpen i address).1 = .ok true ∧ s' = (t.popOpen i address).2.getRead i env) ∨
      (t.popOpen i address).1 = .ok false ∧
        ((∃ msg, s' = (t.popOpen i address).2.end_ i msg) ∨
        ∃ waitMs, s' = ((t.popOpen i address).2.setObject address
          (((t.popOpen i address).2.object address).wait waitMs i)).setPending i
            (.wait address ((t.popOpen i address).2.object address).nextNode))) := by
  unfold getPop at run
  dsimp only at run
  split at run
  · exact .inl ⟨_, (Except.ok.inj run).symm⟩
  case isFalse further =>
    right
    rw [Bool.or_eq_true, not_or, Bool.not_eq_true, Bool.not_eq_true] at further
    refine ⟨further, ?_⟩
    obtain ⟨⟨a, t⟩, found, run⟩ := bind_ok run
    refine ⟨a, t, found, ?_⟩
    dsimp only at run
    split at run
    · cases run
    case h_2 u opened =>
      rw [opened]
      exact .inl ⟨rfl, (Except.ok.inj run).symm⟩
    case h_3 u opened =>
      rw [opened]
      refine .inr ⟨rfl, ?_⟩
      split at run
      · exact .inr ⟨_, (Except.ok.inj run).symm⟩
      · exact .inl ⟨_, (Except.ok.inj run).symm⟩

/-- A server just started over the journals that its data directory holds. -/
structure Started (s : Server) : Prop where
  chunkSize_pos : 0 < s.chunkSize
  conns : s.conns = []
  opened : ∀ q ∈ s.objects, ∃ image path, Queue.new image path = some q
  registered : ∀ name address, s.queues.lookup name = some address → address < s.objects.length
  distinct : ∀ name name' address, s.queues.lookup name = some address →
    s.queues.lookup name' = some address → name = name'

theorem Started.closed {s : Server} (started : s.Started) (i : ℕ) :
    s.conn i = { pending := .closed } :=
  conn_beyond (by simp [started.conns])

def empty (chunkSize : ℕ) (dataPath : Bytes) : Server where
  chunkSize := chunkSize
  dataPath := dataPath
  objects := []
  queues := ∅
  conns := []
  stats := {}

theorem started_empty (chunkSize : ℕ) (dataPath : Bytes) (pos : 0 < chunkSize) :
    (empty chunkSize dataPath).Started where
  chunkSize_pos := pos
  conns := rfl
  opened q mem := by cases mem
  registered name address found := by
    rw [empty, Finmap.lookup_empty] at found
    cases found
  distinct name name' address found := by
    rw [empty, Finmap.lookup_empty] at found
    cases found

end Server

end Darner
