import Darner.BrokerRefinement
import Mathlib.Data.List.DropRight

/-! What a client and the broker say to each other between two starts. A client sends
requests, and gets one answer to each of them, in their order, before the next one is heard;
what was heard and said since the last answer is the beginning of the next exchange. -/

namespace Darner.Conversations
open OrderedStore LabelledRuns HoldingQueues Broker

variable {i : ℕ}

def heardIn (i : ℕ) : Broker.Label → Bytes
  | .turn j heard _ => if j = i then heard else []
  | _ => []

def saidIn (i : ℕ) : Broker.Label → Bytes
  | .turn j _ said => if j = i then said else []
  | _ => []

def sinceStart (past : List Broker.Label) : List Broker.Label := past.rtakeWhile (· ≠ .restart)

def heardFrom (i : ℕ) (past : List Broker.Label) : Bytes := (sinceStart past).flatMap (heardIn i)

def saidTo (i : ℕ) (past : List Broker.Label) : Bytes := (sinceStart past).flatMap (saidIn i)

variable {past : List Broker.Label} {label : Broker.Label}

@[simp] theorem heardFrom_restart : heardFrom i (past ++ [.restart]) = [] := by
  simp [heardFrom, sinceStart]

@[simp] theorem saidTo_restart : saidTo i (past ++ [.restart]) = [] := by
  simp [saidTo, sinceStart]

theorem heardFrom_concat (other : label ≠ .restart) :
    heardFrom i (past ++ [label]) = heardFrom i past ++ heardIn i label := by
  simp [heardFrom, sinceStart, other]

theorem saidTo_concat (other : label ≠ .restart) :
    saidTo i (past ++ [label]) = saidTo i past ++ saidIn i label := by
  simp [saidTo, sinceStart, other]

/-- A request that was answered. An item that was stored, or sent, is the one under `number`
in `lane`. -/
inductive Exchange where
  | answer (line reply : Bytes)
  | stored (line body : Bytes) (lane number : ℕ)
  | item (line name value : Bytes) (lane number : ℕ)

namespace Exchange

def heard : Exchange → Bytes
  | .answer line _ => line
  | .stored line body _ _ => line ++ body ++ ascii "\r\n"
  | .item line _ _ _ _ => line

def said : Exchange → Bytes
  | .answer _ reply => reply
  | .stored _ _ _ _ => ascii "STORED\r\n"
  | .item _ name value _ _ => whole name value

inductive Proper : Exchange → Prop where
  | stats {line text : Bytes} {req : Request} (asked : Request.parse line = some req)
      (type : req.type = .stats) (figures : Figures text) : Proper (.answer line text)
  | version {line : Bytes} {req : Request} (asked : Request.parse line = some req)
      (type : req.type = .version) : Proper (.answer line (ascii "VERSION 0.2.0\r\n"))
  | destroy {line : Bytes} {req : Request} (asked : Request.parse line = some req)
      (type : req.type = .destroy) : Proper (.answer line (ascii "DELETED\r\n"))
  | flush {line : Bytes} {req : Request} (asked : Request.parse line = some req)
      (type : req.type = .flush) : Proper (.answer line (ascii "END\r\n"))
  | flushAll {line : Bytes} {req : Request} (asked : Request.parse line = some req)
      (type : req.type = .flushAll) : Proper (.answer line (ascii "Flushed all queues.\r\n"))
  | stored {line body : Bytes} {req : Request} {lane number : ℕ}
      (asked : Request.parse line = some req) (type : req.type = .set)
      (size : body.length = req.numBytes) : Proper (.stored line body lane number)
  | nothing {line : Bytes} {req : Request} (asked : Request.parse line = some req)
      (type : req.type = .get) : Proper (.answer line (ascii "END\r\n"))
  | item {line value : Bytes} {req : Request} {lane number : ℕ}
      (asked : Request.parse line = some req) (type : req.type = .get) :
      Proper (.item line req.queue value lane number)

end Exchange

inductive Rejects : Bytes → Bytes → Prop where
  | garbled {line : Bytes} (none : Request.parse line = none) :
      Rejects line (refusal "ERROR" "")
  | improper {line : Bytes} {req : Request} {msg : String}
      (asked : Request.parse line = some req) (type : req.type = .get)
      (improper : Improper req msg) : Rejects line (refusal "CLIENT_ERROR" msg)
  | busy {line : Bytes} {req : Request} (asked : Request.parse line = some req)
      (type : req.type = .get) : Rejects line (refusal "CLIENT_ERROR" "close current item first")
  | get {line : Bytes} {req : Request} (asked : Request.parse line = some req)
      (type : req.type = .get) (e : Error) : Rejects line (failure e)
  | badChunk {line body tail : Bytes} {req : Request} (asked : Request.parse line = some req)
      (type : req.type = .set) (size : body.length = req.numBytes) (open_ : tail ≠ ascii "\r\n") :
      Rejects (line ++ body ++ tail) (refusal "CLIENT_ERROR" "bad data chunk")
  | set {line : Bytes} {req : Request} (asked : Request.parse line = some req)
      (type : req.type = .set) (body : Bytes) (e : Error) : Rejects (line ++ body) (failure e)

/-- How far an exchange may have come when the client is cut off. -/
inductive Cut : Bytes → Bytes → Prop where
  | nothing : Cut [] []
  | body {line got : Bytes} {req : Request} (asked : Request.parse line = some req)
      (type : req.type = .set) : Cut (line ++ got) []
  | get {line : Bytes} {req : Request} (asked : Request.parse line = some req)
      (type : req.type = .get) : Cut line []
  | item {line first value : Bytes} {req : Request} (asked : Request.parse line = some req)
      (type : req.type = .get) (part : first <+: value) :
      Cut line (Server.valueHeader req.queue value.length ++ first)
  | told {heard said : Bytes} (rejects : Rejects heard said) : Cut heard said

/-- The beginning of an exchange, by where the client stands. The lane of a set is one that
`knows` allows, and the item that is sent one that `holds` allows. -/
inductive Begun (knows : Request → ℕ → Prop) (holds : Request → Bytes → Prop) :
    Phase → Bytes → Bytes → Prop where
  | asking : Begun knows holds .asking [] []
  | storing {line got : Bytes} {req : Request} {lane : ℕ}
      (asked : Request.parse line = some req) (type : req.type = .set) (lane_ : knows req lane) :
      Begun knows holds (.storing lane req got) (line ++ got) []
  | waiting {line : Bytes} {req : Request} (asked : Request.parse line = some req)
      (type : req.type = .get) : Begun knows holds (.waiting req) line []
  | sending {line first rest value : Bytes} {req : Request}
      (asked : Request.parse line = some req) (type : req.type = .get)
      (split : first ++ rest = value) (item : holds req value) :
      Begun knows holds (.sending req rest) line
        (Server.valueHeader req.queue value.length ++ first)
  | leaving {heard said : Bytes} (rejects : Rejects heard said) :
      Begun knows holds .leaving heard said
  | gone {heard said : Bytes} (cut : Cut heard said) : Begun knows holds .gone heard said

variable {knows knows' : Request → ℕ → Prop} {holds holds' : Request → Bytes → Prop}
  {phase : Phase} {heard said : Bytes}

theorem Begun.mono (unfinished : Begun knows holds phase heard said)
    (more : ∀ req lane, knows req lane → knows' req lane)
    (kept : ∀ req rest, phase = .sending req rest → ∀ value, holds req value → holds' req value) :
    Begun knows' holds' phase heard said := by
  cases unfinished with
  | asking => exact .asking
  | storing asked type lane => exact .storing asked type (more _ _ lane)
  | waiting asked type => exact .waiting asked type
  | sending asked type split item => exact .sending asked type split (kept _ _ rfl _ item)
  | leaving rejects => exact .leaving rejects
  | gone cut => exact .gone cut

theorem Begun.cut (unfinished : Begun knows holds phase heard said) :
    Cut heard said := by
  cases unfinished with
  | asking => exact .nothing
  | storing asked type lane => exact .body asked type
  | waiting asked type => exact .get asked type
  | sending asked type split item => exact .item asked type ⟨_, split⟩
  | leaving rejects => exact .told rejects
  | gone cut => exact cut

variable {called called' : ℕ → Option Bytes} {names names' : Names} {name : Bytes} {lane : ℕ}

structure Called (called : ℕ → Option Bytes) (names : Names) : Prop where
  named : ∀ name lane, names.lane.lookup name = some lane → called lane = some name
  fresh : ∀ lane, names.made ≤ lane → called lane = none

def Extends (called called' : ℕ → Option Bytes) : Prop :=
  ∀ lane name, called lane = some name → called' lane = some name

theorem Extends.refl (called : ℕ → Option Bytes) : Extends called called := fun _ _ same => same

theorem exists_called (sound : names.Sound) :
    ∃ called, Called called names ∧
      ∀ lane name, called lane = some name → names.lane.lookup name = some lane := by
  classical
  refine ⟨fun lane => if h : ∃ name, names.lane.lookup name = some lane then some h.choose else none,
    ⟨fun name lane found => ?_, fun lane beyond => dif_neg ?_⟩, fun lane name same => ?_⟩
  · have known : ∃ name, names.lane.lookup name = some lane := ⟨name, found⟩
    rw [dif_pos known, sound.single known.choose_spec found]
  · rintro ⟨name, found⟩
    exact absurd (sound.made found) (Nat.not_lt.mpr beyond)
  · dsimp only at same
    by_cases known : ∃ name, names.lane.lookup name = some lane
    · rw [dif_pos known] at same
      rw [← Option.some.inj same]
      exact known.choose_spec
    · rw [dif_neg known] at same
      cases same

/-- A turn gives names to new lanes only, and a name keeps its lane unless it is `dropped`. -/
structure Renames (dropped : Bytes → Prop) (called : ℕ → Option Bytes) (names : Names)
    (called' : ℕ → Option Bytes) (names' : Names) : Prop where
  named : Called called' names'
  extends_ : Extends called called'
  fresh : ∀ lane name, called' lane = some name →
    called lane = some name ∨ names'.lane.lookup name = some lane
  retained : ∀ name lane, names.lane.lookup name = some lane →
    names'.lane.lookup name = some lane ∨ dropped name

variable {dropped : Bytes → Prop}

theorem Renames.refl (called_ : Called called names) :
    Renames dropped called names called names where
  named := called_
  extends_ := .refl called
  fresh _ _ same := .inl same
  retained _ _ found := .inl found

theorem Called.insert (called_ : Called called names) {lanes : Store Bytes ℕ}
    (others : ∀ other, other ≠ name → lanes.lookup other = names.lane.lookup other)
    (lost : ∀ lane, names.lane.lookup name = some lane → dropped name) :
    Renames dropped called names (Function.update called names.made (some name))
      ⟨lanes.insert name names.made, names.made + 1⟩ := by
  have apart : Extends called (Function.update called names.made (some name)) := by
    intro lane other same
    have ne : lane ≠ names.made := by
      rintro rfl
      rw [called_.fresh _ (Nat.le_refl _)] at same
      cases same
    rwa [Function.update_of_ne ne]
  refine ⟨⟨fun other lane found => ?_, fun lane beyond => ?_⟩, apart, fun lane other same => ?_,
    fun other lane found => ?_⟩
  · by_cases same : other = name
    · subst same
      rw [Finmap.lookup_insert] at found
      obtain rfl := Option.some.inj found
      exact Function.update_self ..
    · rw [Finmap.lookup_insert_of_ne _ same, others _ same] at found
      exact apart _ _ (called_.named _ _ found)
  · have ne : lane ≠ names.made := Nat.ne_of_gt beyond
    rw [Function.update_of_ne ne]
    exact called_.fresh _ (Nat.le_of_succ_le beyond)
  · by_cases new : lane = names.made
    · subst new
      rw [Function.update_self] at same
      obtain rfl := Option.some.inj same
      exact .inr (Finmap.lookup_insert _)
    · rw [Function.update_of_ne new] at same
      exact .inl same
  · by_cases same : other = name
    · subst same
      exact .inr (lost lane found)
    · rw [Finmap.lookup_insert_of_ne _ same, others _ same]
      exact .inl found

theorem Called.finds (called_ : Called called names) (finds : Finds name names lane names') :
    ∃ called', (∀ dropped, Renames dropped called names called' names') ∧
      called' lane = some name := by
  cases finds with
  | known found => exact ⟨called, fun _ => .refl called_, called_.named _ _ found⟩
  | fresh none =>
    refine ⟨_, fun dropped => called_.insert (fun _ _ => rfl) fun lane found => ?_,
      Function.update_self ..⟩
    rw [none] at found
    cases found

theorem Called.flush (called_ : Called called names) (lost : dropped name) :
    ∃ called', Renames dropped called names called' (names.flush name) := by
  unfold Names.flush
  split
  · exact ⟨called, .refl called_⟩
  · exact ⟨_, called_.insert (fun _ other => Finmap.lookup_erase_ne other) fun _ _ => lost⟩

theorem Called.erase (called_ : Called called names) (lost : dropped name) :
    Renames dropped called names called ⟨names.lane.erase name, names.made⟩ := by
  refine ⟨⟨fun other lane found => ?_, called_.fresh⟩, .refl called, fun _ _ same => .inl same,
    fun other lane found => ?_⟩
  · by_cases same : other = name
    · subst same
      rw [Finmap.lookup_erase] at found
      cases found
    · rw [Finmap.lookup_erase_ne same] at found
      exact called_.named _ _ found
  · by_cases same : other = name
    · subst same
      exact .inr lost
    · rw [Finmap.lookup_erase_ne same]
      exact .inl found

def Knows (called : ℕ → Option Bytes) (req : Request) (lane : ℕ) : Prop :=
  called lane = some req.queue

def Has (called : ℕ → Option Bytes) (i : ℕ) (stock : Stock ℕ ℕ Bytes) (req : Request)
    (value : Bytes) : Prop :=
  ∃ lane n, stock.held i = some (lane, n) ∧ called lane = some req.queue ∧
    (stock.lanes lane).entries[n]? = some value

variable {stock start : Stock ℕ ℕ Bytes} {deals : List Deal} {exchange : Option Exchange}
  {known : Option (ℕ × ℕ)} {req : Request} {line value rest : Bytes} {n : ℕ} {b : Broker}

/-- An item of an exchange is the one in its lane, and the lane has the name of its request. -/
def Exchange.Backed (called : ℕ → Option Bytes) (stock : Stock ℕ ℕ Bytes) : Exchange → Prop
  | .answer _ _ => True
  | .stored line body lane n => ∃ req value, Request.parse line = some req ∧
      called lane = some req.queue ∧ (stock.lanes lane).entries[n]? = some value ∧
      Restores body value
  | .item _ name value lane n =>
      called lane = some name ∧ (stock.lanes lane).entries[n]? = some value

def Exchange.Drops (name : Bytes) : Exchange → Prop
  | .answer line _ => ∃ req, Request.parse line = some req ∧
      (req.type = .destroy ∨ req.type = .flush) ∧ req.queue = name
  | _ => False

def Dropping (exchange : Option Exchange) (name : Bytes) : Prop :=
  ∃ e ∈ exchange, e.Drops name

def Exchange.isItem : Exchange → Bool
  | .item .. => true
  | _ => false

def Midway : Phase → Prop
  | .sending _ _ => True
  | .leaving => True
  | _ => False

/-- All that was heard and said since the last answer, and the exchange that it is when it is
one. -/
inductive Spoken (called : ℕ → Option Bytes) (i : ℕ) (stock : Stock ℕ ℕ Bytes) :
    Phase → Bytes → Bytes → Option Exchange → Prop where
  | more {phase : Phase} {heard said : Bytes}
      (unfinished : Begun (Knows called) (Has called i stock) phase heard said) :
      Spoken called i stock phase heard said none
  | all {exchange : Exchange} (proper : exchange.Proper) (backed : exchange.Backed called stock) :
      Spoken called i stock .asking exchange.heard exchange.said (some exchange)

def IsItem (exchange : Option Exchange) (lane n : ℕ) : Prop :=
  ∃ line name value, exchange = some (.item line name value lane n)

/-- What a client holds and forgets is the item that was `known` before the turn, or the one
that the turn has sent; an item that was known and is still held was the last to be sent. -/
structure Handles (i : ℕ) (known : Option (ℕ × ℕ)) (deals : List Deal) (phase : Phase)
    (exchange : Option Exchange) (stock : Stock ℕ ℕ Bytes) : Prop where
  plain : ∀ line body lane n, exchange ≠ some (.stored line body lane n)
  pushes : ∀ lane value, .push lane value ∉ deals
  mine : ∀ deal ∈ deals, deal.By i
  forgets : ∀ lane n, .forget i lane n ∈ deals → known = some (lane, n) ∨ IsItem exchange lane n
  held : ∀ lane n, stock.held i = some (lane, n) →
    (known = some (lane, n) ∧ ∀ e ∈ exchange, e.isItem = false) ∨ Midway phase ∨
      IsItem exchange lane n

structure Talked (called : ℕ → Option Bytes) (i : ℕ) (known : Option (ℕ × ℕ)) (deals : List Deal)
    (phase : Phase) (heard said : Bytes) (stock : Stock ℕ ℕ Bytes) (exchange : Option Exchange) :
    Prop where
  talk : Spoken called i stock phase heard said exchange
  moves : Handles i known deals phase exchange stock

theorem talked_still
    (unfinished : Begun (Knows called) (Has called i start) phase heard said)
    (does : Runs Stock.Does start [] stock) :
    Talked called i (start.held i) [] phase heard said stock none := by
  cases does
  exact ⟨.more unfinished,
    ⟨by simp, by simp, by simp, by simp, fun lane n held => .inl ⟨held, by simp⟩⟩⟩

theorem talked_answer {reply : Bytes} (proper : (Exchange.answer line reply).Proper)
    (does : Runs Stock.Does start [] stock) :
    Talked called i (start.held i) [] .asking line reply stock (some (.answer line reply)) := by
  cases does
  exact ⟨.all proper trivial,
    ⟨by simp, by simp, by simp, by simp, fun lane n held => .inl ⟨held, by simp [Exchange.isItem]⟩⟩⟩

theorem talked_ends (known : Option (ℕ × ℕ)) (proper : (Exchange.item line name value lane n).Proper)
    (here : called lane = some name) (ends : Broker.Ends i lane n req deals)
    (entry : (start.lanes lane).entries[n]? = some value) (held : start.held i = some (lane, n))
    (does : Runs Stock.Does start deals stock) :
    Talked called i known deals .asking line (whole name value) stock
      (some (.item line name value lane n)) := by
  have is : IsItem (some (.item line name value lane n)) lane n := ⟨line, name, value, rfl⟩
  have entries := Stock.runs_entries_same does (by cases ends <;> simp) lane
  refine ⟨.all proper ⟨here, entries ▸ entry⟩, by simp, ?_, ?_, ?_, ?_⟩
  · cases ends <;> simp
  · cases ends <;> simp [HoldingQueues.Op.By]
  · intro lane' n' mem
    cases ends with
    | kept => cases mem
    | removed =>
      obtain ⟨rfl, rfl⟩ : lane' = lane ∧ n' = n := by simpa using mem
      exact .inr is
    | returned => simp at mem
  · intro lane' n' held'
    cases ends with
    | kept =>
      cases does
      rw [held] at held'
      obtain ⟨rfl, rfl⟩ := Prod.mk.inj (Option.some.inj held')
      exact .inr (.inr is)
    | removed =>
      obtain - | ⟨⟨mine⟩, ⟨⟩⟩ := does
      simp at held'
    | returned =>
      obtain - | ⟨⟨mine⟩, ⟨⟩⟩ := does
      simp at held'

theorem talked_serves (asked : Request.parse line = some req)
    (type : req.type = .get) (here : called lane = some req.queue)
    (serves : Serves i lane n req value deals said phase)
    (entry : (start.lanes lane).entries[n]? = some value)
    (does : Runs Stock.Does start (.take i lane n :: deals) stock) :
    ∃ exchange, Talked called i (start.held i) (.take i lane n :: deals) phase line said stock
      exchange := by
  obtain - | ⟨first, rest⟩ := does
  cases first with
  | take _ mem _ =>
  have held : (start.take i lane n mem).held i = some (lane, n) := by simp
  have entry : ((start.take i lane n mem).lanes lane).entries[n]? = some value := by simpa using entry
  cases serves with
  | all ends =>
    have talked := talked_ends (start.held i) (.item asked type) here ends entry held rest
    refine ⟨_, talked.talk, talked.moves.plain, ?_, ?_, ?_, talked.moves.held⟩
    · simpa using talked.moves.pushes
    · simpa [HoldingQueues.Op.By] using talked.moves.mine
    · simpa using talked.moves.forgets
  | part split more =>
    cases rest
    refine ⟨none, .more (.sending asked type split ⟨lane, n, held, here, entry⟩), ?_⟩
    exact ⟨by simp, by simp, by simp [HoldingQueues.Op.By], by simp, fun _ _ _ => .inr (.inl trivial)⟩
  | lost =>
    obtain - | ⟨⟨mine⟩, ⟨⟩⟩ := rest
    refine ⟨none, .more (.gone (.get asked type)), ?_⟩
    exact ⟨by simp, by simp, by simp [HoldingQueues.Op.By], by simp, by simp⟩
  | failed e =>
    cases rest
    refine ⟨none, .more (.leaving (.get asked type e)), ?_⟩
    exact ⟨by simp, by simp, by simp [HoldingQueues.Op.By], by simp, fun _ _ _ => .inr (.inl trivial)⟩

def Renamed (called : ℕ → Option Bytes) (names names' : Names) (i : ℕ) (known : Option (ℕ × ℕ))
    (deals : List Deal) (phase : Phase) (heard said : Bytes) (stock : Stock ℕ ℕ Bytes) : Prop :=
  ∃ called' exchange, Renames (Dropping exchange) called names called' names' ∧
    Talked called' i known deals phase heard said stock exchange

theorem talked_fetches (called_ : Called called names) (asked : Request.parse line = some req)
    (type : req.type = .get) (free : start.held i = none)
    (fetches : Fetches i start.lanes names req deals said phase names')
    (does : Runs Stock.Does start deals stock) :
    Renamed called names names' i none deals phase line said stock := by
  rw [← free]
  cases fetches with
  | ended only => exact ⟨called, _, .refl called_, talked_answer (.nothing asked type) does⟩
  | served further finds entry serves =>
    obtain ⟨called', renames, here⟩ := called_.finds finds
    obtain ⟨exchange, talked⟩ := talked_serves asked type here serves entry does
    exact ⟨called', exchange, renames _, talked⟩
  | waits further finds empty patient =>
    obtain ⟨called', renames, here⟩ := called_.finds finds
    exact ⟨called', none, renames _, talked_still (.waiting asked type) does⟩
  | nothing further finds empty hasty =>
    obtain ⟨called', renames, here⟩ := called_.finds finds
    exact ⟨called', _, renames _, talked_answer (.nothing asked type) does⟩

theorem talked_gets (called_ : Called called names) (asked : Request.parse line = some req)
    (type : req.type = .get) (gets : Broker.Gets i start names req deals said phase names')
    (does : Runs Stock.Does start deals stock) :
    Renamed called names names' i (start.held i) deals phase line said stock := by
  cases gets with
  | improper improper =>
    exact ⟨called, none, .refl called_, talked_still (.leaving (.improper asked type improper)) does⟩
  | busy proper held keep =>
    exact ⟨called, none, .refl called_, talked_still (.leaving (.busy asked type)) does⟩
  | failed proper held close e =>
    exact ⟨called, none, .refl called_, talked_still (.leaving (.get asked type e)) does⟩
  | fetches proper free fetches =>
    rw [free]
    exact talked_fetches called_ asked type free fetches does
  | closes proper held close fetches =>
    obtain - | ⟨⟨mine⟩, rest⟩ := does
    obtain ⟨called', exchange, renames, talked⟩ :=
      talked_fetches called_ asked type (by simp : (start.forget i).held i = none) fetches rest
    have moves := talked.moves
    refine ⟨called', exchange, renames, talked.talk, moves.plain, ?_, ?_, ?_, ?_⟩
    · simpa using moves.pushes
    · simpa [HoldingQueues.Op.By] using moves.mine
    · intro lane n mem
      rcases List.mem_cons.mp mem with same | later
      · obtain ⟨rfl, rfl⟩ : lane = _ ∧ n = _ := by simpa using same
        exact .inl held
      · exact .inr ((moves.forgets lane n later).resolve_left (by simp))
    · exact fun lane n held => .inr ((moves.held lane n held).resolve_left (by simp))
  | aborts proper held abort =>
    obtain - | ⟨⟨mine⟩, ⟨⟩⟩ := does
    refine ⟨called, _, .refl called_, .all (.nothing asked type) trivial, ?_⟩
    exact ⟨by simp, by simp, by simp [HoldingQueues.Op.By], by simp, by simp⟩

theorem talked_hears (called_ : Called called names)
    (hears : Broker.Hears i start names line deals said phase names')
    (does : Runs Stock.Does start deals stock) :
    Renamed called names names' i (start.held i) deals phase line said stock := by
  cases hears with
  | garbled none =>
    exact ⟨called, _, .refl called_, talked_still (.leaving (.garbled none)) does⟩
  | stats asked type figures =>
    exact ⟨called, _, .refl called_, talked_answer (.stats asked type figures) does⟩
  | version asked type =>
    exact ⟨called, _, .refl called_, talked_answer (.version asked type) does⟩
  | @destroy req asked type =>
    have drops : (Exchange.answer line (ascii "DELETED\r\n")).Drops req.queue :=
      ⟨req, asked, .inl type, rfl⟩
    exact ⟨called, _, called_.erase ⟨_, rfl, drops⟩, talked_answer (.destroy asked type) does⟩
  | @flush req asked type =>
    have drops : (Exchange.answer line (ascii "END\r\n")).Drops req.queue :=
      ⟨req, asked, .inr type, rfl⟩
    have lost : Dropping (some (.answer line (ascii "END\r\n"))) req.queue := ⟨_, rfl, drops⟩
    obtain ⟨called', renames⟩ := called_.flush lost
    exact ⟨called', _, renames, talked_answer (.flush asked type) does⟩
  | flushAll asked type none =>
    exact ⟨called, _, .refl called_, talked_answer (.flushAll asked type) does⟩
  | set asked type finds =>
    obtain ⟨called', renames, here⟩ := called_.finds finds
    have begun : Begun (Knows called') (Has called' i start) _ (line ++ []) [] :=
      .storing asked type here
    rw [List.append_nil] at begun
    exact ⟨called', none, renames _, talked_still begun does⟩
  | get asked type gets => exact talked_gets called_ asked type gets does

theorem talked_receives {got piece : Bytes}
    (receives : Broker.Receives lane req got piece [] said phase)
    (asked : Request.parse line = some req) (type : req.type = .set)
    (here : called lane = some req.queue) (does : Runs Stock.Does start [] stock) :
    Talked called i (start.held i) [] phase (line ++ got ++ piece) said stock none := by
  refine talked_still ?_ does
  rw [List.append_assoc]
  cases receives with
  | more some few => exact .storing asked type here
  | refused split all open_ =>
    rw [split, ← List.append_assoc got, ← List.append_assoc line]
    exact .leaving (.badChunk asked type all open_)
  | failed e => exact .leaving (.set asked type _ e)

theorem talked_continues {rest heard₀ said₀ : Bytes}
    (unfinished : Begun (Knows called) (Has called i start) (.sending req rest) heard₀ said₀)
    (held : start.held i = some (lane, n))
    (continues : Broker.Continues i lane n req rest deals said phase)
    (does : Runs Stock.Does start deals stock) :
    ∃ exchange, Talked called i none deals phase heard₀ (said₀ ++ said) stock exchange := by
  cases unfinished with
  | @sending line first rest value req asked type split has =>
  obtain ⟨lane', n', same, here, entry⟩ := has
  obtain ⟨rfl, rfl⟩ := Prod.mk.inj (Option.some.inj (held.symm.trans same))
  cases continues with
  | part split' more =>
    cases does
    refine ⟨none, .more ?_, ?_⟩
    · rw [List.append_assoc]
      refine .sending asked type ?_ ⟨lane, n, held, here, entry⟩
      rw [List.append_assoc, split', split]
    · exact ⟨by simp, by simp, by simp, by simp, fun _ _ _ => .inr (.inl trivial)⟩
  | all done ends =>
    rw [done, List.append_nil] at split
    have said' : Server.valueHeader req.queue value.length ++ first ++ ascii "\r\nEND\r\n" =
        whole req.queue value := by rw [whole, split]
    rw [said']
    exact ⟨_, talked_ends _ (.item asked type) here ends entry held does⟩
  | lost =>
    obtain - | ⟨⟨mine⟩, ⟨⟩⟩ := does
    refine ⟨none, .more (.gone ?_), ?_⟩
    · rw [List.append_nil]
      exact .item asked type ⟨_, split⟩
    · exact ⟨by simp, by simp, by simp [HoldingQueues.Op.By], by simp, by simp⟩

structure Puts (called : ℕ → Option Bytes) (i : ℕ) (b : Broker) (deals : List Deal) (phase : Phase)
    (heard said : Bytes) (stock : Stock ℕ ℕ Bytes) (lane : ℕ) (value : Bytes)
    (exchange : Option Exchange) : Prop where
  push : deals = [.push lane value]
  pushed : stock = b.stock.push lane value
  stored : ∃ line body, Restores body value ∧
    exchange = some (.stored line body lane (b.stock.lanes lane).entries.length)
  talk : Spoken called i stock phase heard said exchange

theorem puts_receives {got piece : Bytes} {deal : Deal}
    (receives : Broker.Receives lane req got piece (deal :: deals) said phase)
    (asked : Request.parse line = some req) (type : req.type = .set)
    (here : called lane = some req.queue) (does : Runs Stock.Does b.stock (deal :: deals) stock) :
    said = ascii "STORED\r\n" ∧ ∃ value exchange,
      Puts called i b (deal :: deals) phase (line ++ got ++ piece) said stock lane value exchange := by
  cases receives with
  | @stored last value split all restores =>
  obtain - | ⟨⟨⟩, ⟨⟩⟩ := does
  refine ⟨rfl, value, _, rfl, rfl, ⟨line, got ++ last, restores, rfl⟩, ?_⟩
  have entry : ((b.stock.push lane value).lanes lane).entries[
      (b.stock.lanes lane).entries.length]? = some value := by simp
  have heard : line ++ got ++ piece =
      (Exchange.stored line (got ++ last) lane (b.stock.lanes lane).entries.length).heard := by
    simp [Exchange.heard, split]
  rw [heard]
  exact .all (.stored asked type all) ⟨req, value, asked, here, entry, restores⟩

theorem turn_talked {heard₀ said₀ : Bytes} (called_ : Called called b.names)
    (unfinished : Begun (Knows called) (Has called i b.stock) (b.phases i) heard₀ said₀)
    (turn : Turn i b heard deals said phase names) (does : Runs Stock.Does b.stock deals stock) :
    ∃ called' exchange,
      Renames (Dropping exchange) called b.names called' names ∧
      ((∃ known, (∀ p, known = some p → ¬Midway (b.phases i) ∧ b.stock.held i = some p) ∧
        Talked called' i known deals phase (heard₀ ++ heard) (said₀ ++ said) stock exchange) ∨
      said = ascii "STORED\r\n" ∧ ¬Midway (b.phases i) ∧ ∃ lane value,
        Puts called' i b deals phase (heard₀ ++ heard) (said₀ ++ said) stock lane value exchange) := by
  cases turn with
  | hears asking hears =>
    have calm : ¬Midway (b.phases i) := by simp [asking, Midway]
    rw [asking] at unfinished
    cases unfinished
    obtain ⟨called', exchange, renames, talked⟩ := talked_hears called_ hears does
    exact ⟨called', exchange, renames, .inl ⟨_, fun p held => ⟨calm, held⟩, talked⟩⟩
  | receives storing receives =>
    have calm : ¬Midway (b.phases i) := by simp [storing, Midway]
    rw [storing] at unfinished
    cases unfinished with
    | storing asked type here =>
    cases deals with
    | nil =>
      exact ⟨called, none, .refl called_, .inl ⟨_, fun p held => ⟨calm, held⟩,
        talked_receives receives asked type here does⟩⟩
    | cons deal deals =>
      obtain ⟨stored, value, exchange, puts⟩ := puts_receives receives asked type here does
      exact ⟨called, exchange, .refl called_, .inr ⟨stored, calm, _, value, puts⟩⟩
  | woken waiting gets =>
    have calm : ¬Midway (b.phases i) := by simp [waiting, Midway]
    rw [waiting] at unfinished
    cases unfinished with
    | waiting asked type =>
    obtain ⟨called', exchange, renames, talked⟩ := talked_gets called_ asked type gets does
    rw [List.append_nil, List.nil_append]
    exact ⟨called', exchange, renames, .inl ⟨_, fun p held => ⟨calm, held⟩, talked⟩⟩
  | timedOut waiting =>
    have calm : ¬Midway (b.phases i) := by simp [waiting, Midway]
    rw [waiting] at unfinished
    cases unfinished with
    | waiting asked type =>
    rw [List.append_nil, List.nil_append]
    exact ⟨called, _, .refl called_,
      .inl ⟨_, fun p held => ⟨calm, held⟩, talked_answer (.nothing asked type) does⟩⟩
  | continues sending held continues =>
    rw [sending] at unfinished
    obtain ⟨exchange, talked⟩ := talked_continues unfinished held continues does
    rw [List.append_nil]
    exact ⟨called, exchange, .refl called_, .inl ⟨none, by simp, talked⟩⟩
  | leaves here =>
    rw [List.append_nil, List.append_nil]
    refine ⟨called, none, .refl called_, .inl ⟨none, by simp, ?_⟩⟩
    refine ⟨.more (.gone unfinished.cut), by simp, ?_, ?_, ?_, ?_⟩
    · simp [letsGo]
    · intro deal mem
      obtain ⟨p, -, rfl⟩ := List.mem_map.mp mem
      exact rfl
    · simp [letsGo]
    · intro lane n held
      cases before : b.stock.held i with
      | none =>
        rw [letsGo, before] at does
        cases does
        rw [before] at held
        cases held
      | some p =>
        rw [letsGo, before] at does
        obtain - | ⟨⟨mine⟩, ⟨⟩⟩ := does
        simp at held

end Darner.Conversations
