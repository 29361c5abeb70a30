import Darner.BrokerSets

/-! The server is a broker. What an event of the loop says and hears, as a connection has
it, is a turn of the broker, and so every run of the server shows its clients nothing that
a run of the broker does not. -/

namespace Darner.BrokerRefinement
open OrderedStore LabelledRuns StreamMoves QueuePartition QueueRecovery ChunkLayout ReadProgress
open SetProgress SetBodies HoldingQueues ServerMoves ServerWaiters FetchDeeds FetchEvents
open ChunkStore ServerCalls GetReplies
open ReliableFetch
open Broker
open ItemValues BrokerStock BrokerGets BrokerSets

variable {s s' t : Server} {stock : Stock ℕ ℕ Bytes} {b : Broker} {i j address id : ℕ}
  {event : ServerEvent} {phase : Broker.Phase} {env : Env}

def heard (s : Server) : ServerEvent → Bytes
  | .readDone i _ =>
    match (s.conn i).pending with
    | .readUntil => (s.conn i).inBuf.take ((Server.lineLength (s.conn i).inBuf).getD 0)
    | .readChunk n =>
      if n = 0 ∨ s.capacity ≤ (s.conn i).inBuf.length then
        (s.conn i).inBuf.take (required s.chunkSize (s.conn i))
      else []
    | _ => []
  | _ => []

def said (i : ℕ) (s : Server) (event : ServerEvent) (s' : Server) : Bytes :=
  match event, (s.conn i).pending with
  | .writeDone _ _, _ => sent (s'.conn i)
  | _, .write _ _ => []
  | _, _ => sent (s'.conn i)

def shown (s : Server) (event : ServerEvent) (s' : Server) : Broker.Label :=
  match serving s event with
  | some i => .turn i (heard s event) (said i s event s')
  | none =>
    match event with
    | .accept => .join
    | _ => .tick

/-- A step of the server, a crash and a start among them, and what it shows. -/
inductive Shows : Server → Broker.Label → Server → Prop where
  | event {s s' : Server} {event : ServerEvent} (life : Life s (.event event) s') :
      Shows s (shown s event s') s'
  | restart {s s' : Server} (life : Life s .restart s') : Shows s .restart s'

theorem Shows.life {label : Broker.Label} (shows : Shows s label s') : ∃ turn, Life s turn s' := by
  cases shows with
  | event life => exact ⟨_, life⟩
  | restart life => exact ⟨_, life⟩

/-- What holds of a server between two events. -/
structure Firm (s : Server) : Prop where
  settled : Settled s
  steady : Steady s

theorem firm_life {turn : LifeEvent} (firm : Firm s) (life : Life s turn s') : Firm s' :=
  ⟨life_settled s turn s' firm.settled life,
    (life_steady s turn s' ⟨firm.settled.awake, firm.steady⟩ life).2⟩

/-- The broker that a server is. -/
structure Describes (s : Server) (b : Broker) : Prop where
  names : b.names = namesOf s
  stocked : Stocked s b.stock
  stands : ∀ j, Stands s j (b.phases j)
  joined : b.joined = s.conns.length

theorem gathered_congr {image image' : Image} {stream : OQStream}
    (stop : stream.header.end_ > 1 → stream.chunkPos ≤ stream.header.end_)
    (same : ∀ n ∈ stream.reserved, image'.lookup ⟨.chunk, n⟩ = image.lookup ⟨.chunk, n⟩) :
    gathered image' stream = gathered image stream := by
  unfold gathered
  split
  case isTrue multi =>
    refine chunksOf_congr fun n start below => same n ?_
    have := stop multi
    rw [OQStream.reserved_multi multi, Header.range, Finset.mem_Ico]
    omega
  case isFalse => rfl

theorem stands_other (firm : Firm s) (life : Life s (.event event) s')
    (there : j < s.conns.length) (other : serving s event ≠ some j) (stands : Stands s j phase) :
    Stands s' j phase := by
  have changes := life_changes firm.settled life
  obtain ⟨run, fits⟩ := life
  have conn := step_others firm.settled.awake run there other
  cases stands with
  | idle pending => exact .idle (conn ▸ pending)
  | answered pending => exact .answered (conn ▸ pending)
  | @storing a n pending isOpen =>
    have stands : Stands s' j _ := .storing (conn ▸ pending) (conn ▸ isOpen)
    have same : gathered (s'.object a).contents (s.conn j).pushStream =
        gathered (s.object a).contents (s.conn j).pushStream :=
      gathered_congr (fun multi => ((firm.steady.sound a).cons.layout.unfinished _
        (mem_writers there isOpen) multi).stop) fun n inside =>
        step_reserved firm.settled.awake firm.steady run fits.chunks isOpen inside other
    rwa [conn, same] at stands
  | waiting pending =>
    have stands : Stands s' j _ := .waiting (conn ▸ pending)
    rwa [conn] at stands
  | @sending a text value pending multi isOpen item =>
    have held : Holds s' j a (s.conn j).popStream.id := ⟨conn ▸ isOpen, by rw [conn]⟩
    have sound := firm.settled.sound a
    have below := held_below sound ⟨isOpen, rfl⟩
    have kept := changes_item sound.cons below (changes a) held.mem
    have stands : Stands s' j _ := .sending (conn ▸ pending) (conn ▸ multi) (conn ▸ isOpen)
      (by rw [conn]; exact kept.trans item)
    rwa [conn] at stands
  | leaving pending => exact .leaving (conn ▸ pending)
  | gone pending => exact .gone (conn ▸ pending)

section Stands

variable {n node : ℕ} {text : Bytes}

theorem stands_readUntil (reading : (s.conn i).pending = .readUntil) (stands : Stands s i phase) :
    phase = .asking := by
  cases stands <;> simp_all

theorem stands_readChunk (reading : (s.conn i).pending = .readChunk n) (stands : Stands s i phase) :
    ∃ address, (s.conn i).pushStream.queue = some address ∧
      phase = .storing address (s.conn i).req
        (gathered (s.object address).contents (s.conn i).pushStream) := by
  cases stands <;> simp_all

theorem stands_wait (waits : (s.conn i).pending = .wait address node) (stands : Stands s i phase) :
    phase = .waiting (s.conn i).req := by
  cases stands <;> simp_all

theorem stands_answered (writes : (s.conn i).pending = .write text .readRequest)
    (stands : Stands s i phase) : phase = .asking := by
  cases stands <;> simp_all

theorem stands_sending (writes : (s.conn i).pending = .write text .getOnWriteChunk)
    (stands : Stands s i phase) : ∃ rest, phase = .sending (s.conn i).req rest := by
  cases stands <;> simp_all

theorem stands_here (open_ : (s.conn i).pending ≠ .closed) (stands : Stands s i phase) :
    phase ≠ .gone := by
  rintro rfl
  cases stands with
  | gone pending => exact open_ pending

end Stands

/-- What the broker does for client `i` while its connection is served. -/
inductive Acted (i : ℕ) (s s' : Server) (b : Broker) (line text : Bytes) : Prop where
  | quiet (nothing : line = []) (silent : text = []) (names : namesOf s' = namesOf s)
      (stocked : Stocked s' b.stock) (stands : Stands s' i (b.phases i))
  | turn {deals : List Deal} {phase : Broker.Phase}
      (turn : Broker.Turn i b line deals text phase (namesOf s'))
      (tells : Tells i s' b.stock deals text phase)

theorem sent_idle {h : Handler} (idle : ∀ text next, h.pending ≠ .write text next) :
    sent h = [] := by
  unfold sent
  split
  case h_1 text next writes => exact absurd writes (idle text next)
  case h_2 => rfl

theorem said_quiet (other : ∀ j env, event ≠ .writeDone j env)
    (idle : ∀ text next, (s'.conn i).pending ≠ .write text next) : said i s event s' = [] := by
  unfold said
  split
  · exact sent_idle idle
  · rfl
  · exact sent_idle idle

theorem said_same (other : ∀ j env, event ≠ .writeDone j env) : said i s event s = [] := by
  unfold said
  split
  · exact absurd rfl (other _ _)
  · rfl
  case h_3 _ idle => exact sent_idle idle

theorem acted_same (describes : Describes s b) {line text : Bytes} (nothing : line = [])
    (silent : text = []) : Acted i s s b line text :=
  .quiet nothing silent rfl describes.stocked (describes.stands i)

theorem said_drop {ok : Bool} (there : i < s.conns.length) :
    said i s event (s.drop i ok) = [] := by
  have silent : sent ((s.drop i ok).conn i) = [] := by rw [conn_drop there, sent]
  unfold said
  split
  · exact silent
  · rfl
  · exact silent

theorem acted_drop (event : ServerEvent) (firm : Firm s) (describes : Describes s b) (ok : Bool)
    (open_ : (s.conn i).pending ≠ .closed) :
    Acted i s (s.drop i ok) b [] (said i s event (s.drop i ok)) := by
  rw [said_drop (Server.conn_there open_)]
  have ready := firm.settled.ready (Server.conn_there open_)
  obtain ⟨deeds, same, acts⟩ := acts_drop ready describes.stocked ok
  have tells := told_tells ready describes.stocked (told_drop acts ready.there)
  rw [same] at tells
  have leaves : Broker.Turn i b [] (letsGo i b.stock) [] .gone b.names :=
    .leaves (stands_here open_ (describes.stands i))
  rw [describes.names] at leaves
  exact .turn (namesOf_drop (i := i) s ok ▸ leaves) tells

theorem stocked_touch {h : Handler} (firm : Firm s) (stocked : Stocked s stock)
    (there : i < s.conns.length) (pop : h.popStream = (s.conn i).popStream)
    (push : h.pushStream = (s.conn i).pushStream) : Stocked (s.setConn i h) stock :=
  stocked_calm firm.settled.sound stocked
    (calm_setConn there (fun a => by rw [readerOn, pop]; rfl) fun a => by rw [writerOn, push]; rfl)
    fun _ => rfl

theorem acted_recv {data : Bytes} (firm : Firm s) (describes : Describes s b) :
    Acted i s (s.recv i data) b (heard s (.recv i data))
      (said i s (.recv i data) (s.recv i data)) := by
  have stands := describes.stands i
  rcases recv_cases s i data with same | ⟨-, ⟨reading, -, same⟩ | ⟨n, -, reading, same⟩⟩
  · rw [same]
    exact acted_same describes rfl (said_same (by simp))
  · have there : i < s.conns.length := Server.conn_there (by simp [reading])
    have conn := Server.conn_setConn_self
      { s.conn i with inBuf := (s.conn i).inBuf ++ data } there
    have pending := (congrArg Handler.pending conn).trans reading
    rw [same]
    refine .quiet rfl (said_quiet (by simp) (by simp [pending])) rfl
      (stocked_touch firm describes.stocked there rfl rfl) ?_
    rw [stands_readUntil reading stands]
    exact .idle pending
  · have there : i < s.conns.length := Server.conn_there (by simp [reading])
    have conn := Server.conn_setConn_self
      { s.conn i with
        inBuf := (s.conn i).inBuf ++ data, pending := .readChunk (n - data.length) } there
    have pending := congrArg Handler.pending conn
    rw [same]
    refine .quiet rfl (said_quiet (by simp) (by simp [pending])) rfl
      (stocked_touch firm describes.stocked there rfl rfl) ?_
    obtain ⟨a, isOpen, storing⟩ := stands_readChunk reading stands
    have isOpen' := (congrArg (fun h => h.pushStream.queue) conn).trans isOpen
    have stands' : Stands _ i _ := .storing pending isOpen'
    rw [conn] at stands'
    rw [storing]
    exact stands'

theorem namesOf_keeps (keeps : KeepsMap i s s') : namesOf s' = namesOf s := by
  rw [namesOf, keeps.queues, keeps.objects, namesOf]

theorem acted_readDone (firm : Firm s) (describes : Describes s b)
    (run : s.readDone i env = .ok s') (fits : Fits s') :
    Acted i s s' b (heard s (.readDone i env)) (said i s (.readDone i env) s') := by
  have stands := describes.stands i
  unfold Server.readDone at run
  dsimp only at run
  split at run
  case h_1 reading =>
    have there : i < s.conns.length := Server.conn_there (by simp [reading])
    have ready := firm.settled.ready there
    have asking := stands_readUntil reading stands
    split at run
    case h_1 n line =>
      obtain ⟨deals, said', phase, hears, tells⟩ := parseRequest_tells ready describes.stocked
        firm.settled.chunkSize_pos run fits.chunks
      have line' : heard s (.readDone i env) = (s.conn i).inBuf.take n := by
        simp [heard, reading, line]
      have text : said i s (.readDone i env) s' = said' := by
        simp [said, reading, tells.text]
      rw [line', text]
      rw [← describes.names] at hears
      exact .turn (.hears asking hears) tells
    case h_2 none =>
      have nothing : heard s (.readDone i env) = [] := by
        simp [heard, reading, none]
      rw [nothing, ← Except.ok.inj run]
      split
      · exact acted_drop _ firm describes _ (by simp [reading])
      · exact acted_same describes rfl (said_same (by simp))
  case h_2 n reading =>
    obtain ⟨address, isOpen, storing⟩ := stands_readChunk reading stands
    have there : i < s.conns.length := Server.conn_there (by simp [reading])
    rw [← Except.ok.inj run]
    split
    case isTrue enough =>
      obtain ⟨deals, said', phase, receives, tells⟩ := setOnReadChunk_tells env
        firm.steady describes.stocked reading enough isOpen
      have piece : heard s (.readDone i env) =
          (s.conn i).inBuf.take (required s.chunkSize (s.conn i)) := by
        simp [heard, reading, enough]
      have text : said i s (.readDone i env) (s.setOnReadChunk i env) = said' := by
        simp [said, reading, tells.text]
      have turn : Broker.Turn i b _ deals said' phase b.names := .receives storing receives
      rw [describes.names, ← namesOf_keeps (keeps_setOnReadChunk there)] at turn
      rw [piece, text]
      exact .turn turn tells
    case isFalse early =>
      refine acted_same describes ?_ (said_same (by simp))
      simp [heard, reading, early]
  case h_3 until_ chunk =>
    rw [← Except.ok.inj run]
    refine acted_same describes ?_ (said_same (by simp))
    unfold heard
    dsimp only
    split
    case h_1 reading => exact absurd reading until_
    case h_2 n reading => exact absurd reading (chunk n)
    case h_3 => rfl

theorem acted_readFailed (firm : Firm s) (describes : Describes s b) :
    Acted i s (s.readFailed i env) b (heard s (.readFailed i env))
      (said i s (.readFailed i env) (s.readFailed i env)) := by
  unfold Server.readFailed
  dsimp only
  split
  case h_1 reading =>
    split
    · exact acted_drop _ firm describes _ (by simp [reading])
    · exact acted_same describes rfl (said_same (by simp))
  case h_2 n reading =>
    split
    · exact acted_drop _ firm describes _ (by simp [reading])
    · exact acted_same describes rfl (said_same (by simp))
  case h_3 => exact acted_same describes rfl (said_same (by simp))

theorem acted_writeDone (firm : Firm s) (describes : Describes s b) :
    Acted i s (s.writeDone i env) b (heard s (.writeDone i env))
      (said i s (.writeDone i env) (s.writeDone i env)) := by
  have stands := describes.stands i
  unfold Server.writeDone
  split
  case h_1 text writes =>
    have there : i < s.conns.length := Server.conn_there (by simp [writes])
    have conn := Server.conn_setConn_self { s.conn i with pending := .readUntil } there
    have pending : ((s.setPending i .readUntil).conn i).pending = .readUntil :=
      congrArg Handler.pending conn
    refine .quiet rfl (sent_idle (by simp [pending])) rfl
      (stocked_touch firm describes.stocked there rfl rfl) ?_
    rw [stands_answered writes stands]
    exact .idle pending
  case h_2 text writes =>
    have there : i < s.conns.length := Server.conn_there (by simp [writes])
    have ready := firm.settled.ready there
    have begun := ((firm.settled.phase i).serving ⟨text, writes⟩).2.1
    obtain ⟨rest, sending⟩ := stands_sending writes stands
    rw [sending] at stands
    obtain ⟨a, n, held, deeds, said', phase, continues, told⟩ :=
      getOnWriteChunk_told env ready begun stands
    have turn : Broker.Turn i b [] (deeds.map (deal i)) said' phase b.names :=
      .continues sending ((describes.stocked.holds i a n).mpr held) continues
    rw [describes.names, ← namesOf_getOnWriteChunk (i := i)] at turn
    have tells := told_tells ready describes.stocked told
    have text : said i s (.writeDone i env) (s.getOnWriteChunk i env) = said' := told.text
    rw [text]
    exact .turn turn tells
  case h_3 text writes => exact acted_drop _ firm describes _ (by simp [writes])
  case h_4 answered going leaving =>
    refine acted_same describes rfl (sent_idle fun text next writes => ?_)
    cases next with
    | readRequest => exact answered text writes
    | getOnWriteChunk => exact going text writes
    | hangUp => exact leaving text writes

theorem acted_writeFailed (firm : Firm s) (describes : Describes s b) :
    Acted i s (s.writeFailed i env) b (heard s (.writeFailed i env))
      (said i s (.writeFailed i env) (s.writeFailed i env)) := by
  unfold Server.writeFailed
  split
  case h_1 text next writes => exact acted_drop _ firm describes _ (by simp [writes])
  case h_2 => exact acted_same describes rfl (said_same (by simp))

theorem acted_callback {node : ℕ} {w : Waiter} (firm : Firm s) (describes : Describes s b)
    (due : s.dueWaiter address node = some w) (run : s.callback address node env = .ok s') :
    Acted w.cb s s' b (heard s (.callback address node env))
      (said w.cb s (.callback address node env) s') := by
  have mem : w ∈ (s.object address).waiters := List.mem_of_find?_eq_some due
  obtain ⟨-, waits⟩ := firm.settled.awake.waits address w mem
  have there : w.cb < s.conns.length := Server.conn_there (by simp [waits.pending])
  have ready := firm.settled.ready there
  have waiting := stands_wait waits.pending (describes.stands w.cb)
  have unseen : Unseen (s.object address) ((s.object address).waiterWakeup node).1 :=
    ⟨rfl, rfl, rfl, rfl, rfl, rfl⟩
  have woken : Acts w.cb [] s
      (s.setObject address ((s.object address).waiterWakeup node).1) :=
    acts_calm (calm_unseen w.cb (Server.waiter_there mem) unseen) (heads_setObject rfl)
  have names : namesOf (s.setObject address ((s.object address).waiterWakeup node).1) = b.names := by
    rw [namesOf_setObject, describes.names]
  have text : ∀ {said'}, sent (s'.conn w.cb) = said' →
      said w.cb s (.callback address node env) s' = said' := by
    intro said' same
    simp [said, waits.pending, same]
  unfold Server.callback at run
  rw [due] at run
  dsimp only at run
  split at run
  case isTrue =>
    have stocked := stocked_calm ready.sound describes.stocked woken.after woken.heads
    obtain ⟨deeds, said', phase, gets, told⟩ := get_told (woken.ready ready) stocked run
    rw [names] at gets
    rw [text told.text]
    exact .turn (.woken waiting gets) (told_tells ready describes.stocked (told.acting woken))
  case isFalse =>
    rw [← Except.ok.inj run] at text ⊢
    have tells := tells_reply ready describes.stocked woken (ascii "END\r\n")
    have turn : Broker.Turn w.cb b [] [] (ascii "END\r\n") .asking b.names := .timedOut waiting
    rw [← names] at turn
    rw [text tells.text]
    exact .turn turn tells

theorem follow_conns {io : Io} {deletes : Bytes → Prop} (there : i < s.conns.length)
    (follow : Follow i io deletes s s') : s'.conns.length = s.conns.length := by
  obtain ⟨t, calls, leaves⟩ := follow
  have kept := (calls.invariant (P := fun t => t.conns.length = s.conns.length)
    (fun t t' there same call => (call.conns there).trans same) there rfl).2
  cases leaves with
  | done => exact kept
  | waits => exact List.length_set.trans kept

theorem conns_parseRequest {n : ℕ} (reading : (s.conn i).pending = .readUntil)
    (run : s.parseRequest i n env = .ok s') : s'.conns.length = s.conns.length := by
  have there : i < s.conns.length := Server.conn_there (by simp [reading])
  unfold Server.parseRequest at run
  dsimp only at run
  split at run
  case h_1 =>
    rw [← Except.ok.inj run]
    exact List.length_set
  case h_2 req asked =>
    have there' : i < (s.setConn i
        { s.conn i with req := req, inBuf := (s.conn i).inBuf.drop n }).conns.length :=
      lt_of_lt_of_eq there List.length_set.symm
    have free : Free ((s.setConn i
        { s.conn i with req := req, inBuf := (s.conn i).inBuf.drop n }).conn i) := by
      rw [Server.conn_setConn_self _ there]
      simp [Free, reading]
    have follow : Follow i env.io (fun _ => True) _ s' :=
      follow_dispatch there' free (fun _ => trivial) run
    exact (follow_conns there' follow).trans List.length_set

theorem conns_drop {ok : Bool} (open_ : (s.conn i).pending ≠ .closed) :
    (s.drop i ok).conns.length = s.conns.length :=
  (keeps_drop (Server.conn_there open_)).conns

theorem conns_readDone (run : s.readDone i env = .ok s') : s'.conns.length = s.conns.length := by
  unfold Server.readDone at run
  dsimp only at run
  split at run
  case h_1 reading =>
    split at run
    · exact conns_parseRequest reading run
    · rw [← Except.ok.inj run]
      split
      · exact conns_drop (by simp [reading])
      · rfl
  case h_2 n reading =>
    rw [← Except.ok.inj run]
    split
    · exact (keeps_setOnReadChunk (Server.conn_there (by simp [reading]))).conns
    · rfl
  case h_3 => rw [← Except.ok.inj run]

theorem conns_readFailed : (s.readFailed i env).conns.length = s.conns.length := by
  unfold Server.readFailed
  dsimp only
  split
  case h_1 reading =>
    split
    · exact conns_drop (by simp [reading])
    · rfl
  case h_2 n reading =>
    split
    · exact conns_drop (by simp [reading])
    · rfl
  case h_3 => rfl

theorem conns_writeDone : (s.writeDone i env).conns.length = s.conns.length := by
  unfold Server.writeDone
  split
  case h_1 => exact List.length_set
  case h_2 text writes =>
    have there : i < s.conns.length := Server.conn_there (by simp [writes])
    have calls : Calls i env.io (fun _ => True) s (s.getOnWriteChunk i env) :=
      calls_getOnWriteChunk there (by simp [Free, writes])
    exact follow_conns there ⟨_, calls, .done⟩
  case h_3 text writes => exact conns_drop (by simp [writes])
  case h_4 => rfl

theorem conns_callback {a node : ℕ} (awake : Awake none s) (run : s.callback a node env = .ok s') :
    s'.conns.length = s.conns.length := by
  unfold Server.callback at run
  split at run
  · rw [← Except.ok.inj run]
  case h_2 w due =>
    obtain ⟨-, waits⟩ := awake.waits a w (List.mem_of_find?_eq_some due)
    have there : w.cb < s.conns.length := Server.conn_there (by simp [waits.pending])
    dsimp only at run
    split at run
    case isTrue =>
      have free : Free ((s.setObject a ((s.object a).waiterWakeup node).1).conn w.cb) :=
        free_pending rfl (by simp [Free, waits.pending] : Free (s.conn w.cb))
      have there' : w.cb <
        (s.setObject a ((s.object a).waiterWakeup node).1).conns.length := there
      have follow : Follow w.cb env.io (fun _ => True) _ s' := follow_get there' free run
      have kept := follow_conns there' follow
      exact kept
    case isFalse =>
      rw [← Except.ok.inj run]
      exact List.length_set

theorem conns_step (awake : Awake none s) (run : s.Step event s') (other : event ≠ .accept) :
    s'.conns.length = s.conns.length := by
  cases event with
  | accept => exact absurd rfl other
  | recv i data =>
    rw [← Except.ok.inj run]
    exact (keeps_recv (i := i)).conns
  | readDone i env => exact conns_readDone run
  | readFailed i env =>
    rw [← Except.ok.inj run]
    exact conns_readFailed
  | writeDone i env =>
    rw [← Except.ok.inj run]
    exact conns_writeDone
  | writeFailed i env =>
    rw [← Except.ok.inj run]
    unfold Server.writeFailed
    split
    case h_1 text next writes => exact conns_drop (by simp [writes])
    case h_2 => rfl
  | expire a node =>
    rw [← Except.ok.inj run]
    rfl
  | callback a node env => exact conns_callback awake run

theorem stands_beyond (beyond : s.conns.length ≤ j) : Stands s j .gone :=
  .gone (by rw [Server.conn_beyond beyond])

theorem stands_beyond_gone (beyond : s.conns.length ≤ j) (stands : Stands s j phase) :
    phase = .gone := by
  have closed := Server.conn_beyond beyond
  cases stands <;> simp_all

theorem served_step (firm : Firm s) (describes : Describes s b) (life : Life s (.event event) s')
    (who : serving s event = some i)
    (acted : Acted i s s' b (heard s event) (said i s event s')) :
    ∃ deals b', Broker.Step b (shown s event s', deals) b' ∧ Describes s' b' := by
  have conns : s'.conns.length = s.conns.length := by
    obtain ⟨run, -⟩ := life
    refine conns_step firm.settled.awake run ?_
    rintro rfl
    cases who
  have others : ∀ j ≠ i, Stands s' j (b.phases j) := by
    intro j ne
    have stands := describes.stands j
    by_cases there : j < s.conns.length
    · refine stands_other firm life there ?_ stands
      rw [who]
      exact fun same => ne (Option.some.inj same).symm
    · rw [stands_beyond_gone (Nat.le_of_not_lt there) stands]
      exact stands_beyond (conns ▸ Nat.le_of_not_lt there)
  have label : shown s event s' = .turn i (heard s event) (said i s event s') := by
    unfold shown
    rw [who]
  rw [label]
  cases acted with
  | quiet nothing silent names stocked stands =>
    rw [nothing, silent]
    refine ⟨[], b, .quiet i, names ▸ describes.names, stocked, fun j => ?_, conns ▸ describes.joined⟩
    by_cases mine : j = i
    · exact mine ▸ stands
    · exact others j mine
  | @turn deals phase turn tells =>
    obtain ⟨stock, does, stocked⟩ := tells.stocked
    refine ⟨deals, _, .turn turn does, rfl, stocked, fun j => ?_, conns ▸ describes.joined⟩
    change Stands s' j (Function.update b.phases i phase j)
    by_cases mine : j = i
    · subst mine
      rw [Function.update_self]
      exact tells.stands
    · rw [Function.update_of_ne mine]
      exact others j mine

theorem unserved_step (firm : Firm s) (describes : Describes s b)
    (life : Life s (.event event) s') (who : serving s event = none) (conns : s'.conns = s.conns)
    (names : namesOf s' = namesOf s) (calm : Calm i s s') (heads : SameHeads s s') :
    Describes s' b := by
  refine ⟨names ▸ describes.names, stocked_calm firm.settled.sound describes.stocked calm heads,
    fun j => ?_, conns ▸ describes.joined⟩
  by_cases there : j < s.conns.length
  · exact stands_other firm life there (by rw [who]; exact (Option.some_ne_none j).symm)
      (describes.stands j)
  · rw [stands_beyond_gone (Nat.le_of_not_lt there) (describes.stands j)]
    exact stands_beyond (by rw [conns]; exact Nat.le_of_not_lt there)

theorem accept_step (firm : Firm s) (describes : Describes s b)
    (life : Life s (.event .accept) s') :
    ∃ deals b', Broker.Step b (.join, deals) b' ∧ Describes s' b' := by
  obtain ⟨run, -⟩ := id life
  obtain rfl := Except.ok.inj run
  refine ⟨[], _, .join, describes.names, ?_, fun j => ?_, ?_⟩
  · exact stocked_calm firm.settled.sound describes.stocked (calm_accept s _) fun _ => rfl
  · change Stands _ j (Function.update b.phases b.joined .asking j)
    by_cases new : j = b.joined
    · subst new
      rw [Function.update_self]
      refine .idle ?_
      rw [describes.joined]
      simp [Server.conn]
    · rw [Function.update_of_ne new]
      rw [describes.joined] at new
      by_cases there : j < s.conns.length
      · exact stands_other firm life there (Option.some_ne_none j).symm (describes.stands j)
      · rw [stands_beyond_gone (Nat.le_of_not_lt there) (describes.stands j)]
        refine stands_beyond ?_
        simp only [List.length_append, List.length_singleton]
        omega
  · simp [describes.joined]

theorem step_acts (firm : Firm s) (describes : Describes s b)
    (life : Life s (.event event) s') :
    ∃ deals b', Broker.Step b (shown s event s', deals) b' ∧ Describes s' b' := by
  obtain ⟨run, fits⟩ := id life
  cases event with
  | accept => exact accept_step firm describes life
  | recv i data =>
    refine served_step firm describes life rfl ?_
    rw [← Except.ok.inj run]
    exact acted_recv firm describes
  | readDone i env => exact served_step firm describes life rfl (acted_readDone firm describes run fits)
  | readFailed i env =>
    refine served_step firm describes life rfl ?_
    rw [← Except.ok.inj run]
    exact acted_readFailed firm describes
  | writeDone i env =>
    refine served_step firm describes life rfl ?_
    rw [← Except.ok.inj run]
    exact acted_writeDone firm describes
  | writeFailed i env =>
    refine served_step firm describes life rfl ?_
    rw [← Except.ok.inj run]
    exact acted_writeFailed firm describes
  | expire a node =>
    refine ⟨[], b, .tick, ?_⟩
    have same : s.setObject a ((s.object a).expireTimer node) = s' := Except.ok.inj run
    have calm : Calm 0 s s' := by
      rw [← same]
      by_cases made : a < s.objects.length
      · exact calm_unseen 0 made ⟨rfl, rfl, rfl, rfl, rfl, rfl⟩
      · rw [Server.setObject_beyond _ (Nat.le_of_not_lt made)]
        exact .refl 0 s
    refine unserved_step firm describes life rfl ?_ ?_ calm ?_
    · rw [← same]
      rfl
    · rw [← same, namesOf_setObject]
    · rw [← same]
      exact heads_setObject rfl
  | callback a node env =>
    cases due : s.dueWaiter a node with
    | none =>
      have who : serving s (.callback a node env) = none := by
        rw [serving, due]
        rfl
      have same : s' = s := by
        have run : s.callback a node env = .ok s' := run
        unfold Server.callback at run
        rw [due] at run
        exact (Except.ok.inj run).symm
      subst same
      have label : shown s' (.callback a node env) s' = .tick := by
        unfold shown
        rw [who]
      rw [label]
      exact ⟨[], b, .tick, describes⟩
    | some w =>
      exact served_step firm describes life (by rw [serving, due]; rfl)
        (acted_callback firm describes due run)

theorem config_started (started : s.Started) (a : ℕ) :
    ServerMoves.config s a = ⟨s.object a, [], []⟩ := by
  rw [ServerMoves.config, started.conns]
  rfl

theorem values_blank : Values [] ⟨.blank ∅ [], [], []⟩ where
  length := Nat.le_refl 0
  below m id mem := by
    change (⟨.queue, id⟩ : Key) ∈ (⟨∅, []⟩ : Journal Key Bytes).imageAt m at mem
    rw [Journal.imageAt_fresh] at mem
    exact absurd mem Finmap.notMem_empty
  stored m id value mem := absurd mem Finmap.notMem_empty
  known m id value old := absurd old (Nat.not_lt_zero id)

theorem entries_restarted (stocked : Stocked s stock) (again : Restarted s s') (a : ℕ) :
    ∃ entries, (∃ former k, entries = (stock.lanes former).entries.take k) ∧
      Values entries (ServerMoves.config s' a) ∧
      entries.length = (s'.object a).queueHead.id := by
  rw [config_started again.started]
  by_cases made : a < s'.objects.length
  · have mem : s'.object a ∈ s'.objects := by simp [Server.object, made]
    obtain ⟨former, writes, path, new⟩ := again.journals _ mem
    obtain ⟨values, head⟩ := values_new (stocked.values former) new
    refine ⟨_, ⟨former, _, rfl⟩, values, ?_⟩
    rw [List.length_take, stocked.length]
    exact Nat.min_eq_left head
  · rw [Server.object_beyond (Nat.le_of_not_lt made)]
    exact ⟨[], ⟨0, 0, rfl⟩, values_blank, rfl⟩

def opened (s : Server) (entries : ℕ → List Bytes)
    (length : ∀ a, (entries a).length = (s.object a).queueHead.id)
    (own : ∀ a, (s.object a).Ownership []) : Stock ℕ ℕ Bytes where
  lanes a :=
    { entries := entries a
      available := (s.object a).returned ∪
        Finset.Ico (s.object a).queueTail.id (s.object a).queueHead.id
      below := fun n mem => by
        have tail := (own a).tail_le_head
        rw [length]
        rcases Finset.mem_union.mp mem with old | range
        · exact lt_of_lt_of_le ((own a).returned_lt n old) tail
        · exact (Finset.mem_Ico.mp range).2 }
  held _ := none
  held_below held := by cases held
  held_apart held := by cases held
  single held := by cases held

theorem restart_step (firm : Firm s) (describes : Describes s b) (life : Life s .restart s') :
    ∃ deals b', Broker.Step b (.restart, deals) b' ∧ Describes s' b' := by
  have firm' := firm_life firm life
  cases life with
  | restart again =>
    choose entries old values length using entries_restarted describes.stocked again
    have own : ∀ a, (s'.object a).Ownership [] := by
      intro a
      have own := (firm'.settled.sound a).cons.own
      rwa [config_started again.started] at own
    have gone := again.started.closed
    refine ⟨[], ⟨namesOf s', opened s' entries length own, fun _ => .gone, 0⟩,
      .restart ⟨⟨again.started.registered _ _, again.started.distinct _ _ _⟩, old, fun _ => rfl,
        rfl, rfl⟩, rfl, ?_, fun j => .gone ?_, ?_⟩
    · refine ⟨values, length, fun a n => ?_, fun j => ?_⟩
      · simp only [opened, Finset.mem_union, Finset.mem_Ico, Queue.Available]
      · rw [gone j]
        rfl
    · rw [gone j]
    · rw [again.started.conns]
      rfl

theorem shows_step (s : Server) (label : Broker.Label) (s' : Server) (b : Broker) (firm : Firm s)
    (describes : Describes s b) (shows : Shows s label s') :
    ∃ deals b', Broker.Step b (label, deals) b' ∧ Describes s' b' := by
  cases shows with
  | event life => exact step_acts firm describes life
  | restart life => exact restart_step firm describes life

theorem runs_described {labels : List Broker.Label} (firm : Firm s) (describes : Describes s b)
    (run : Runs Shows s labels t) :
    ∃ (steps : List (Broker.Label × List Deal)) (b' : Broker), steps.map Prod.fst = labels ∧
      Runs Broker.Step b steps b' ∧ Describes t b' :=
  Runs.refined
    (fun s label s' firm shows => by
      obtain ⟨turn, life⟩ := shows.life
      exact firm_life firm life)
    (fun s label s' b firm describes shows => shows_step s label s' b firm describes shows)
    firm describes run

theorem describes_empty {chunkSize : ℕ} {dataPath : Bytes} (pos : 0 < chunkSize) :
    Describes (.empty chunkSize dataPath) .start where
  names := rfl
  stocked :=
    { values := fun a => by
        have blank : ServerMoves.config (.empty chunkSize dataPath) a = ⟨.blank ∅ [], [], []⟩ := by
          rw [config_started (Server.started_empty chunkSize dataPath pos),
            Server.object_beyond (Nat.zero_le a)]
        exact blank ▸ values_blank
      length := fun a => by
        rw [Server.object_beyond (Nat.zero_le a)]
        rfl
      available := fun a n => by
        rw [Server.object_beyond (Nat.zero_le a)]
        simp [start, Stock.empty, Lane.empty, Queue.Available, Queue.blank]
      held := fun j => by
        rw [Server.conn_beyond (Nat.zero_le j)]
        rfl }
  stands j := stands_beyond (Nat.zero_le j)
  joined := rfl

theorem firm_empty {chunkSize : ℕ} {dataPath : Bytes} (pos : 0 < chunkSize) :
    Firm (.empty chunkSize dataPath) :=
  ⟨settled_empty pos, (reachable_steady pos .refl).2⟩

/-- Whatever a server shows its clients, a broker can show. -/
theorem server_refines_broker {chunkSize : ℕ} {dataPath : Bytes} {labels : List Broker.Label}
    (pos : 0 < chunkSize) (run : Runs Shows (.empty chunkSize dataPath) labels s) :
    ∃ (steps : List (Broker.Label × List Deal)) (b : Broker), steps.map Prod.fst = labels ∧
      Runs Broker.Step .start steps b ∧ Describes s b :=
  runs_described (firm_empty pos) (describes_empty pos) run

def showing (s : Server) (events : List ServerEvent) : Option (Server × List Broker.Label) :=
  during (fun _ => true) 0 (fun labels s event t => labels ++ [shown s event t]) (s, []) events

theorem runs_showing {step : Server → Broker.Label → Server → Prop}
    (life_step : ∀ s event s', Life s (.event event) s' → step s (shown s event s') s')
    {events : List ServerEvent} {labels : List Broker.Label}
    (run : showing s events = some (t, labels)) : Runs step s labels t := by
  refine during_keeps (P := fun p => Runs step s p.2 p.1) ?_ run (.nil s)
  intro event u labels v _ life before
  exact before.append (.single (life_step u event v life))

def handover : List ServerEvent :=
  let env : Env := ⟨fun _ => true, 0, 0, 0⟩
  [.accept, .recv 0 (ascii "set q 0 0 2\r\nhi\r\n"), .readDone 0 env, .readDone 0 env, .accept,
    .recv 1 (ascii "get q\r\n"), .readDone 1 env]

def handoverLabels : List Broker.Label :=
  [.join, .turn 0 [] [], .turn 0 (ascii "set q 0 0 2\r\n") [],
    .turn 0 (ascii "hi\r\n") (ascii "STORED\r\n"), .join, .turn 1 [] [],
    .turn 1 (ascii "get q\r\n") (ascii "VALUE q 0 2\r\nhi\r\nEND\r\n")]

theorem showing_handover :
    (showing (.empty 16 [47]) handover).map Prod.snd = some handoverLabels := by decide

theorem runs_handover : ∃ s, Runs Shows (.empty 16 [47]) handoverLabels s := by
  obtain ⟨⟨s, labels⟩, run, same⟩ := Option.map_eq_some_iff.mp showing_handover
  obtain rfl : labels = handoverLabels := same
  exact ⟨s, runs_showing (fun _ _ _ => .event) run⟩

theorem server_refines_handover :
    ∃ (s : Server) (steps : List (Broker.Label × List Deal)) (b : Broker),
      Runs Shows (.empty 16 [47]) handoverLabels s ∧ steps.map Prod.fst = handoverLabels ∧
      Runs Broker.Step .start steps b ∧ Describes s b := by
  obtain ⟨s, run⟩ := runs_handover
  obtain ⟨steps, b, labels, broker, describes⟩ := server_refines_broker (by decide) run
  exact ⟨s, steps, b, run, labels, broker, describes⟩

end Darner.BrokerRefinement
