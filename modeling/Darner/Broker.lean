import Darner.Library.HoldingQueues
import Darner.Server

/-! What the server is for. A broker keeps lanes of items, some of them under a name. Its
clients speak to it in requests: an item goes to the end of the lane that has the name, and
the first one that is available goes to the client that asks for one, which holds it until
the item is removed or given back. A turn is what passes between one client and the broker
at once: the bytes that the broker hears, what it does to the lanes, and the bytes that it
says. It may fail a request, or cut a client off, at any time. -/

namespace Darner
open OrderedStore LabelledRuns HoldingQueues

namespace Broker

/-- An operation of a client, by its number, on a lane. -/
abbrev Deal := HoldingQueues.Op ℕ ℕ Bytes

inductive Phase where
  | asking
  | storing (lane : ℕ) (req : Request) (got : Bytes)
  | waiting (req : Request)
  | sending (req : Request) (rest : Bytes)
  | leaving
  | gone

/-- The lanes that have a name, and how many were made. -/
structure Names where
  lane : Store Bytes ℕ
  made : ℕ

structure Names.Sound (names : Names) : Prop where
  made : ∀ {name lane}, names.lane.lookup name = some lane → lane < names.made
  single : ∀ {name name' lane}, names.lane.lookup name = some lane →
    names.lane.lookup name' = some lane → name = name'

inductive Finds (name : Bytes) (names : Names) : ℕ → Names → Prop where
  | known {lane : ℕ} (found : names.lane.lookup name = some lane) : Finds name names lane names
  | fresh (none : names.lane.lookup name = none) :
      Finds name names names.made ⟨names.lane.insert name names.made, names.made + 1⟩

def Names.flush (names : Names) (name : Bytes) : Names :=
  if names.lane.lookup name = none then names
  else ⟨(names.lane.erase name).insert name names.made, names.made + 1⟩

def whole (name value : Bytes) : Bytes :=
  Server.valueHeader name value.length ++ value ++ ascii "\r\nEND\r\n"

def refusal (kind msg : String) : Bytes := ascii kind ++ ascii " " ++ ascii msg ++ ascii "\r\n"

def failure (e : Error) : Bytes := ascii "SERVER_ERROR " ++ e.message ++ ascii "\r\n"

inductive Figures : Bytes → Prop where
  | intro (lines : List Bytes) (each : ∀ line ∈ lines, ascii "STAT " <+: line) :
      Figures (lines.flatten ++ ascii "END\r\n")

/-- What a reader gets of a body: the body itself, but for the single byte `0` and for an
empty one. -/
inductive Restores : Bytes → Bytes → Prop where
  | same (body : Bytes) : Restores body body
  | zero : Restores [0] [0, 0]
  | empty : Restores [] [0]

variable (i : ℕ)

inductive Ends (lane n : ℕ) (req : Request) : List Deal → Prop where
  | kept (isOpen : req.getOpen = true) : Ends lane n req []
  | removed (isOpen : req.getOpen = false) (peek : req.getPeek = false) :
      Ends lane n req [.forget i lane n]
  | returned (isOpen : req.getOpen = false) (peek : req.getPeek = true) :
      Ends lane n req [.giveBack i lane n]

inductive Serves (lane n : ℕ) (req : Request) (value : Bytes) : List Deal → Bytes → Phase → Prop
    where
  | all {deals : List Deal} (ends : Ends i lane n req deals) :
      Serves lane n req value deals (whole req.queue value) .asking
  | part {first rest : Bytes} (split : first ++ rest = value) (more : rest ≠ []) :
      Serves lane n req value [] (Server.valueHeader req.queue value.length ++ first)
        (.sending req rest)
  /-- The removal fails, and the client is cut off. -/
  | lost : Serves lane n req value [.giveBack i lane n] [] .gone
  | failed (e : Error) : Serves lane n req value [] (failure e) .leaving

inductive Continues (lane n : ℕ) (req : Request) (rest : Bytes) :
    List Deal → Bytes → Phase → Prop where
  | part {next rest' : Bytes} (split : next ++ rest' = rest) (some : next ≠ []) :
      Continues lane n req rest [] next (.sending req rest')
  | all {deals : List Deal} (done : rest = []) (ends : Ends i lane n req deals) :
      Continues lane n req rest deals (ascii "\r\nEND\r\n") .asking
  | lost : Continues lane n req rest [.giveBack i lane n] [] .gone

/-- A client that holds nothing, or not any more, asks for an item. -/
inductive Fetches (lanes : ℕ → Lane Bytes) (names : Names) (req : Request) :
    List Deal → Bytes → Phase → Names → Prop where
  | ended (only : ((req.getClose && !req.getOpen) || req.getAbort) = true) :
      Fetches lanes names req [] (ascii "END\r\n") .asking names
  | served {lane n : ℕ} {value said : Bytes} {deals : List Deal} {phase : Phase} {names' : Names}
      (further : ((req.getClose && !req.getOpen) || req.getAbort) = false)
      (finds : Finds req.queue names lane names')
      (entry : (lanes lane).entries[n]? = some value)
      (serves : Serves i lane n req value deals said phase) :
      Fetches lanes names req (.take i lane n :: deals) said phase names'
  | waits {lane : ℕ} {names' : Names}
      (further : ((req.getClose && !req.getOpen) || req.getAbort) = false)
      (finds : Finds req.queue names lane names') (none : (lanes lane).available = ∅)
      (patient : req.waitMs ≠ 0) : Fetches lanes names req [] [] (.waiting req) names'
  | nothing {lane : ℕ} {names' : Names}
      (further : ((req.getClose && !req.getOpen) || req.getAbort) = false)
      (finds : Finds req.queue names lane names') (none : (lanes lane).available = ∅)
      (hasty : req.waitMs = 0) : Fetches lanes names req [] (ascii "END\r\n") .asking names'

inductive Improper (req : Request) : String → Prop where
  | abort (abort : req.getAbort = true)
      (other : (req.getOpen || req.getClose || req.getPeek) = true) :
      Improper req "abort must be by itself"
  | peek (peek : req.getPeek = true) (isOpen : req.getOpen = true) :
      Improper req "cannot open and peek"

/-- A `get`, which first lets go of what the client holds when it is asked to. -/
inductive Gets (stock : Stock ℕ ℕ Bytes) (names : Names) (req : Request) :
    List Deal → Bytes → Phase → Names → Prop where
  | improper {msg : String} (improper : Improper req msg) :
      Gets stock names req [] (refusal "CLIENT_ERROR" msg) .leaving names
  | busy (proper : ∀ msg, ¬Improper req msg) (held : stock.held i ≠ none)
      (keep : (req.getAbort || req.getClose) = false) :
      Gets stock names req [] (refusal "CLIENT_ERROR" "close current item first") .leaving names
  | fetches {deals : List Deal} {said : Bytes} {phase : Phase} {names' : Names}
      (proper : ∀ msg, ¬Improper req msg) (free : stock.held i = none)
      (fetches : Fetches i stock.lanes names req deals said phase names') :
      Gets stock names req deals said phase names'
  | closes {lane n : ℕ} {deals : List Deal} {said : Bytes} {phase : Phase} {names' : Names}
      (proper : ∀ msg, ¬Improper req msg) (held : stock.held i = some (lane, n))
      (close : req.getClose = true)
      (fetches : Fetches i stock.lanes names req deals said phase names') :
      Gets stock names req (.forget i lane n :: deals) said phase names'
  | aborts {lane n : ℕ} (proper : ∀ msg, ¬Improper req msg)
      (held : stock.held i = some (lane, n)) (abort : req.getAbort = true) :
      Gets stock names req [.giveBack i lane n] (ascii "END\r\n") .asking names
  | failed (proper : ∀ msg, ¬Improper req msg) (held : stock.held i ≠ none)
      (close : req.getClose = true) (e : Error) :
      Gets stock names req [] (failure e) .leaving names

inductive Hears (stock : Stock ℕ ℕ Bytes) (names : Names) (line : Bytes) :
    List Deal → Bytes → Phase → Names → Prop where
  | garbled (none : Request.parse line = none) :
      Hears stock names line [] (refusal "ERROR" "") .leaving names
  | stats {req : Request} {text : Bytes} (asked : Request.parse line = some req)
      (type : req.type = .stats) (figures : Figures text) :
      Hears stock names line [] text .asking names
  | version {req : Request} (asked : Request.parse line = some req) (type : req.type = .version) :
      Hears stock names line [] (ascii "VERSION 0.2.0\r\n") .asking names
  | destroy {req : Request} (asked : Request.parse line = some req) (type : req.type = .destroy) :
      Hears stock names line [] (ascii "DELETED\r\n") .asking
        ⟨names.lane.erase req.queue, names.made⟩
  | flush {req : Request} (asked : Request.parse line = some req) (type : req.type = .flush) :
      Hears stock names line [] (ascii "END\r\n") .asking (names.flush req.queue)
  | flushAll {req : Request} (asked : Request.parse line = some req)
      (type : req.type = .flushAll) (none : names.lane.keys = ∅) :
      Hears stock names line [] (ascii "Flushed all queues.\r\n") .asking names
  | set {req : Request} {lane : ℕ} {names' : Names} (asked : Request.parse line = some req)
      (type : req.type = .set) (finds : Finds req.queue names lane names') :
      Hears stock names line [] [] (.storing lane req []) names'
  | get {req : Request} {deals : List Deal} {said : Bytes} {phase : Phase} {names' : Names}
      (asked : Request.parse line = some req) (type : req.type = .get)
      (gets : Gets i stock names req deals said phase names') :
      Hears stock names line deals said phase names'

/-- A piece of the body of a `set`. The last one has its terminator with it. -/
inductive Receives (lane : ℕ) (req : Request) (got piece : Bytes) :
    List Deal → Bytes → Phase → Prop where
  | more (some : piece ≠ []) (few : got.length + piece.length < req.numBytes) :
      Receives lane req got piece [] [] (.storing lane req (got ++ piece))
  | stored {last value : Bytes} (split : piece = last ++ ascii "\r\n")
      (all : (got ++ last).length = req.numBytes) (restores : Restores (got ++ last) value) :
      Receives lane req got piece [.push lane value] (ascii "STORED\r\n") .asking
  | refused {last tail : Bytes} (split : piece = last ++ tail)
      (all : (got ++ last).length = req.numBytes) (open_ : tail ≠ ascii "\r\n") :
      Receives lane req got piece [] (refusal "CLIENT_ERROR" "bad data chunk") .leaving
  | failed (e : Error) : Receives lane req got piece [] (failure e) .leaving

def letsGo (stock : Stock ℕ ℕ Bytes) : List Deal :=
  (stock.held i).toList.map fun (lane, n) => .giveBack i lane n

end Broker

structure Broker where
  names : Broker.Names
  stock : Stock ℕ ℕ Bytes
  phases : ℕ → Broker.Phase
  joined : ℕ

namespace Broker

def start : Broker := ⟨⟨∅, 0⟩, .empty, fun _ => .gone, 0⟩

/-- A turn of client `i`. -/
inductive Turn (i : ℕ) (b : Broker) : Bytes → List Deal → Bytes → Phase → Names → Prop where
  | hears {line said : Bytes} {deals : List Deal} {phase : Phase} {names : Names}
      (asking : b.phases i = .asking) (hears : Hears i b.stock b.names line deals said phase names) :
      Turn i b line deals said phase names
  | receives {lane : ℕ} {req : Request} {got piece said : Bytes} {deals : List Deal} {phase : Phase}
      (storing : b.phases i = .storing lane req got)
      (receives : Receives lane req got piece deals said phase) :
      Turn i b piece deals said phase b.names
  | woken {req : Request} {said : Bytes} {deals : List Deal} {phase : Phase} {names : Names}
      (waiting : b.phases i = .waiting req)
      (gets : Gets i b.stock b.names req deals said phase names) :
      Turn i b [] deals said phase names
  | timedOut {req : Request} (waiting : b.phases i = .waiting req) :
      Turn i b [] [] (ascii "END\r\n") .asking b.names
  | continues {req : Request} {rest said : Bytes} {lane n : ℕ} {deals : List Deal} {phase : Phase}
      (sending : b.phases i = .sending req rest) (held : b.stock.held i = some (lane, n))
      (continues : Continues i lane n req rest deals said phase) :
      Turn i b [] deals said phase b.names
  | leaves (here : b.phases i ≠ .gone) : Turn i b [] (letsGo i b.stock) [] .gone b.names

inductive Label where
  | turn (i : ℕ) (heard said : Bytes)
  | join
  /-- Something that no client takes part in. -/
  | tick
  | restart
deriving DecidableEq

/-- What is left of a broker after a crash, to which no client is connected: lanes of which
each has entries of a former one, under their numbers. -/
structure Left (b b' : Broker) : Prop where
  names : b'.names.Sound
  lanes : ∀ a, ∃ former k,
    (b'.stock.lanes a).entries = (b.stock.lanes former).entries.take k
  held : ∀ c, b'.stock.held c = none
  phases : b'.phases = fun _ => .gone
  joined : b'.joined = 0

inductive Step : Broker → Label × List Deal → Broker → Prop where
  | turn {b : Broker} {i : ℕ} {heard said : Bytes} {deals : List Deal} {phase : Phase}
      {names : Names} {stock : Stock ℕ ℕ Bytes} (turn : Turn i b heard deals said phase names)
      (does : Runs Stock.Does b.stock deals stock) :
      Step b (.turn i heard said, deals)
        { b with names := names, stock := stock, phases := Function.update b.phases i phase }
  | quiet {b : Broker} (i : ℕ) : Step b (.turn i [] [], []) b
  | tick {b : Broker} : Step b (.tick, []) b
  | join {b : Broker} :
      Step b (.join, [])
        { b with phases := Function.update b.phases b.joined .asking, joined := b.joined + 1 }
  | restart {b b' : Broker} (left : Left b b') : Step b (.restart, []) b'

end Broker

end Darner
