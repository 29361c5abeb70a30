import Darner.ItemLedger
import Darner.RequestFraming

/-! What a client sent and what it was sent, over the whole life of a server. Each request is
answered once, in the order of the requests, with an answer to that request; what was sent
and not yet heard is in the buffer. -/

namespace Darner.Dialogues
open OrderedStore LabelledRuns HoldingQueues ServerMoves ServerWaiters FetchDeeds FetchEvents
open SetProgress SetBodies ServerCalls
open RequestFraming
open ReliableFetch
open Broker
open BrokerGets BrokerRefinement Conversations ItemLedger

variable {s s' : Server} {i : ℕ} {event : ServerEvent} {h h' : Handler} {more added said : Bytes}

/-- All that connection `i` sent since the last start, what was taken off it, and what was
said to it. -/
structure Dialogue where
  sent : Bytes := []
  heard : Bytes := []
  said : Bytes := []
deriving DecidableEq

variable {d d' : Dialogue}

def Dialogue.next (i : ℕ) (d : Dialogue) (s : Server) (event : ServerEvent) (s' : Server) :
    Dialogue where
  sent := d.sent ++ arrived i s s' event
  heard := d.heard ++ heardIn i (shown s event s')
  said := d.said ++ saidIn i (shown s event s')

inductive DialogueStep (i : ℕ) : Server × Dialogue → LifeEvent → Server × Dialogue → Prop where
  | event {s s' : Server} {event : ServerEvent} {d : Dialogue} (life : Life s (.event event) s') :
      DialogueStep i (s, d) (.event event) (s', d.next i s event s')
  | restart {s s' : Server} {d : Dialogue} (life : Life s .restart s') :
      DialogueStep i (s, d) .restart (s', {})

def Open (h : Handler) : Prop := h.pending ≠ .closed ∧ ¬Dying h

theorem not_dying (free : ∀ text, h.pending ≠ .write text .hangUp) : ¬Dying h := by
  rintro ⟨text, writes⟩
  exact free text writes

inductive Fed (h h' : Handler) : Bytes → Bytes → Prop where
  | still (same : h' = h) : Fed h h' [] []
  | shut (shut : ¬Open h') : Fed h h' [] []
  | refused {heard : Bytes} (isOpen : Open h) (shut : ¬Open h') (part : heard <+: h.inBuf) :
      Fed h h' heard []
  | more {heard added : Bytes} (isOpen : Open h) (same : h.inBuf ++ added = heard ++ h'.inBuf) :
      Fed h h' heard added

theorem fed_left {heard : Bytes} (isOpen : Open h) (part : heard <+: h.inBuf)
    (left : ¬Open h' ∨ h'.inBuf = h.inBuf.drop heard.length) : Fed h h' heard [] := by
  rcases left with shut | left
  · exact .refused isOpen shut part
  · obtain ⟨rest, whole⟩ := part
    refine .more isOpen ?_
    rw [left, ← whole, List.drop_left, List.append_nil]

theorem answered_left (answered : Answered h h') : ¬Open h' ∨ h'.inBuf = h.inBuf := by
  cases answered with
  | gone same =>
    rw [same]
    exact .inl fun still => still.1 rfl
  | writes stream text next same => exact .inr (by rw [same])
  | waits stream address node same => exact .inr (by rw [same])

theorem dispatch_left {env : Env} (there : i < s.conns.length) (run : s.dispatch i env = .ok s') :
    ¬Open (s'.conn i) ∨ (s'.conn i).inBuf = (s.conn i).inBuf := by
  by_cases type : (s.conn i).req.type = .set
  · have run : s.countSet.set i = .ok s' := by rwa [Server.dispatch, type] at run
    have there' : i < s.countSet.conns.length := there
    obtain ⟨stream, n, conn, -⟩ := conn_set there' run
    rw [conn]
    exact .inr rfl
  · exact answered_left (answered_dispatch there type run)

theorem drop_over {ok : Bool} (there : i < s.conns.length) : ¬Open ((s.drop i ok).conn i) := by
  rw [conn_drop there]
  exact fun still => still.1 rfl

theorem fed_recv (data : Bytes) :
    Fed (s.conn i) ((s.recv i data).conn i) [] (arrived i s (s.recv i data) (.recv i data)) := by
  rw [arrived, if_pos rfl]
  rcases recv_cases s i data with same | ⟨room, ⟨pending, -, same⟩ | ⟨n, -, pending, same⟩⟩
  · rw [same, List.drop_length]
    exact .still rfl
  · have there : i < s.conns.length := Server.conn_there (by simp [pending])
    rw [same, Server.conn_setConn_self _ there, List.drop_left]
    exact .more ⟨by simp [pending], not_dying (by simp [pending])⟩ (by simp)
  · have there : i < s.conns.length := Server.conn_there (by simp [pending])
    rw [same, Server.conn_setConn_self _ there, List.drop_left]
    exact .more ⟨by simp [pending], not_dying (by simp [pending])⟩ (by simp)

theorem fed_parseRequest {n : ℕ} {env : Env} (pending : (s.conn i).pending = .readUntil)
    (line : Server.lineLength (s.conn i).inBuf = some n) (run : s.parseRequest i n env = .ok s') :
    Fed (s.conn i) (s'.conn i) ((s.conn i).inBuf.take n) [] := by
  have there : i < s.conns.length := Server.conn_there (by simp [pending])
  have isOpen : Open (s.conn i) := ⟨by simp [pending], not_dying (by simp [pending])⟩
  have part := List.take_prefix n (s.conn i).inBuf
  have whole : ((s.conn i).inBuf.take n).length = n :=
    List.length_take_of_le (lineLength_bounds line).2
  unfold Server.parseRequest at run
  dsimp only at run
  split at run
  case h_1 =>
    rw [← Except.ok.inj run]
    exact .refused isOpen (fun still => still.2 (dying_reply there _)) part
  case h_2 req asked =>
    have conn := Server.conn_setConn_self
      { s.conn i with req := req, inBuf := (s.conn i).inBuf.drop n } there
    have there' : i < (s.setConn i
      { s.conn i with req := req, inBuf := (s.conn i).inBuf.drop n }).conns.length :=
      lt_of_lt_of_eq there List.length_set.symm
    refine fed_left isOpen part ?_
    rw [whole]
    have left := dispatch_left there' run
    rwa [conn] at left

theorem fed_setOnReadChunk {n : ℕ} {env : Env} (pending : (s.conn i).pending = .readChunk n)
    (made : ∀ a, (s.conn i).pushStream.queue = some a → a < s.objects.length)
    (receiving : Receiving s.chunkSize (s.conn i) n)
    (enough : n = 0 ∨ s.capacity ≤ (s.conn i).inBuf.length) :
    Fed (s.conn i) ((s.setOnReadChunk i env).conn i)
      ((s.conn i).inBuf.take (required s.chunkSize (s.conn i))) [] := by
  have there : i < s.conns.length := Server.conn_there (by simp [pending])
  have buffered := receiving.buffered enough
  have took : Took i env s (s.setOnReadChunk i env) :=
    setOnReadChunk_took there made receiving enough
  refine fed_left ⟨by simp [pending], not_dying (by simp [pending])⟩ (List.take_prefix ..) ?_
  rw [List.length_take_of_le buffered]
  cases took with
  | @failed rest text stream conn =>
    refine .inl fun still => still.2 ⟨text, ?_⟩
    rw [conn]
  | more conn large =>
    rw [conn, required, if_pos large]
    exact .inr rfl
  | stored isOpen conn last =>
    rw [conn, required, if_neg (Nat.not_lt.mpr last)]
    exact .inr rfl

theorem fed_readDone {env : Env} (firm : Firm s) (run : s.readDone i env = .ok s') :
    Fed (s.conn i) (s'.conn i) (heard s (.readDone i env)) [] := by
  unfold Server.readDone at run
  dsimp only at run
  split at run
  case h_1 pending =>
    have there : i < s.conns.length := Server.conn_there (by simp [pending])
    simp only [heard, pending]
    split at run
    case h_1 n line =>
      rw [line]
      exact fed_parseRequest pending line run
    case h_2 line =>
      rw [line, ← Except.ok.inj run]
      split
      · exact .shut (drop_over there)
      · exact .still rfl
  case h_2 n pending =>
    rw [← Except.ok.inj run]
    simp only [heard, pending]
    by_cases enough : n = 0 ∨ s.capacity ≤ (s.conn i).inBuf.length
    · rw [if_pos enough, if_pos enough]
      exact fed_setOnReadChunk pending (fun a isOpen => firm.steady.sited.held i a (.inr isOpen))
        (firm.steady.receives.reading i n pending) enough
    · rw [if_neg enough, if_neg enough]
      exact .still rfl
  case h_3 line chunk =>
    rw [← Except.ok.inj run]
    unfold heard
    dsimp only
    split
    case h_1 pending => exact absurd pending line
    case h_2 n pending => exact absurd pending (chunk n)
    case h_3 => exact .still rfl

theorem fed_readFailed {env : Env} :
    Fed (s.conn i) ((s.readFailed i env).conn i) [] [] := by
  unfold Server.readFailed
  dsimp only
  split
  case h_1 pending =>
    have there : i < s.conns.length := Server.conn_there (by simp [pending])
    split
    · exact .shut (drop_over there)
    · exact .still rfl
  case h_2 n pending =>
    have there : i < s.conns.length := Server.conn_there (by simp [pending])
    split
    · exact .shut (drop_over there)
    · exact .still rfl
  case h_3 => exact .still rfl

theorem fed_writeDone {env : Env} : Fed (s.conn i) ((s.writeDone i env).conn i) [] [] := by
  unfold Server.writeDone
  split
  case h_1 text pending =>
    have there : i < s.conns.length := Server.conn_there (by simp [pending])
    have conn : (s.setPending i .readUntil).conn i = { s.conn i with pending := .readUntil } :=
      Server.conn_setConn_self _ there
    rw [conn]
    exact fed_left ⟨by simp [pending], not_dying (by simp [pending])⟩ List.nil_prefix (.inr rfl)
  case h_2 text pending =>
    have there : i < s.conns.length := Server.conn_there (by simp [pending])
    exact fed_left ⟨by simp [pending], not_dying (by simp [pending])⟩ List.nil_prefix
      (answered_left (answered_getOnWriteChunk there env))
  case h_3 text pending =>
    exact .shut (drop_over (Server.conn_there (by simp [pending])))
  case h_4 => exact .still rfl

theorem fed_writeFailed {env : Env} : Fed (s.conn i) ((s.writeFailed i env).conn i) [] [] := by
  unfold Server.writeFailed
  split
  case h_1 text next pending =>
    exact .shut (drop_over (Server.conn_there (by simp [pending])))
  case h_2 => exact .still rfl

theorem fed_callback {address node : ℕ} {env : Env} {w : Waiter} (awake : Awake none s)
    (due : s.dueWaiter address node = some w) (run : s.callback address node env = .ok s') :
    Fed (s.conn w.cb) (s'.conn w.cb) [] [] := by
  obtain ⟨mem, -⟩ := dueWaiter_mem due
  have pending := (awake.waits address w mem).2.pending
  have there : w.cb <
    (s.setObject address ((s.object address).waiterWakeup node).1).conns.length :=
    Server.conn_there (s := s) (by simp [pending])
  refine fed_left ⟨by simp [pending], not_dying (by simp [pending])⟩ List.nil_prefix ?_
  refine answered_left ?_
  simp only [Server.callback, due] at run
  split at run
  · have answered := answered_get there run
    exact answered
  · rw [← Except.ok.inj run]
    have answered := answered_reply there (ascii "END\r\n") .readRequest
    exact answered

theorem heardIn_shown :
    heardIn i (shown s event s') = if serving s event = some i then heard s event else [] := by
  unfold shown
  cases who : serving s event with
  | none => cases event <;> rfl
  | some j => simp [heardIn]

theorem arrived_elsewhere (other : serving s event ≠ some i) : arrived i s s' event = [] := by
  cases event with
  | recv j data => exact if_neg fun same => other (congrArg some same)
  | _ => rfl

theorem fed_step (firm : Firm s) (there : i < s.conns.length) (run : s.Step event s') :
    Fed (s.conn i) (s'.conn i) (heardIn i (shown s event s')) (arrived i s s' event) := by
  rw [heardIn_shown]
  by_cases mine : serving s event = some i
  case neg =>
    rw [if_neg mine, arrived_elsewhere mine]
    exact .still (step_others firm.settled.awake run there mine)
  rw [if_pos mine]
  cases event with
  | accept => cases mine
  | expire a node => cases mine
  | recv j data =>
    obtain rfl := Option.some.inj mine
    rw [← Except.ok.inj run]
    exact fed_recv data
  | readDone j env =>
    obtain rfl := Option.some.inj mine
    exact fed_readDone firm run
  | readFailed j env =>
    obtain rfl := Option.some.inj mine
    rw [← Except.ok.inj run]
    exact fed_readFailed
  | writeDone j env =>
    obtain rfl := Option.some.inj mine
    rw [← Except.ok.inj run]
    exact fed_writeDone
  | writeFailed j env =>
    obtain rfl := Option.some.inj mine
    rw [← Except.ok.inj run]
    exact fed_writeFailed
  | callback address node env =>
    obtain ⟨w, due, rfl⟩ := Option.map_eq_some_iff.mp mine
    exact fed_callback firm.settled.awake due run

/-- What was heard is what was sent, up to what is still in the buffer. -/
structure Heeded (d : Dialogue) (h : Handler) : Prop where
  heard : d.heard <+: d.sent
  rest : Open h → d.sent = d.heard ++ h.inBuf

theorem Heeded.next (heeded : Heeded d h) (fed : Fed h h' more added) :
    Heeded ⟨d.sent ++ added, d.heard ++ more, said⟩ h' := by
  cases fed with
  | still same =>
    simp only [List.append_nil, same]
    exact ⟨heeded.heard, heeded.rest⟩
  | shut shut =>
    simp only [List.append_nil]
    exact ⟨heeded.heard, fun isOpen => absurd isOpen shut⟩
  | refused isOpen shut part =>
    simp only [List.append_nil]
    refine ⟨?_, fun isOpen => absurd isOpen shut⟩
    rw [heeded.rest isOpen]
    exact (List.prefix_append_right_inj _).mpr part
  | more isOpen same =>
    have rest : d.sent ++ added = d.heard ++ more ++ h'.inBuf := by
      rw [heeded.rest isOpen, List.append_assoc, same, List.append_assoc]
    exact ⟨rest ▸ List.prefix_append .., fun _ => rest⟩

def Recorded (i : ℕ) (s : Server) (d : Dialogue) : Prop :=
  ∃ labels base called talk b, Describes s b ∧ Ledger base called labels b talk ∧
    d.heard = heardFrom i labels ∧ d.said = saidTo i labels

structure Traced (i : ℕ) (p : Server × Dialogue) : Prop where
  firm : Firm p.1
  heeded : Heeded p.2 (p.1.conn i)
  blank : p.1.conns.length ≤ i → p.2 = {}
  recorded : Recorded i p.1 p.2

theorem kept_empty {chunkSize : ℕ} {dataPath : Bytes} (pos : 0 < chunkSize) :
    Traced i (.empty chunkSize dataPath, {}) where
  firm := firm_empty pos
  heeded := ⟨List.prefix_rfl, fun isOpen => absurd (by rw [Server.conn_beyond (Nat.zero_le i)]) isOpen.1⟩
  blank _ := rfl
  recorded := ⟨[], _, _, _, _, describes_empty pos, ledger_start, rfl, rfl⟩

theorem shown_live : shown s event s' ≠ .restart := by
  unfold shown
  split
  · simp
  · split <;> simp

theorem next_absent {labels : List Broker.Label} {base : Stock ℕ ℕ Bytes}
    {called : ℕ → Option Bytes} {talk : ℕ → List Exchange} {b' : Broker} (firm : Firm s)
    (beyond : s.conns.length ≤ i) (run : s.Step event s') (describes : Describes s' b')
    (ledger : Ledger base called (labels ++ [shown s event s']) b' talk)
    (heard_ : heardFrom i labels = []) (said_ : saidTo i labels = []) :
    Dialogue.next i {} s event s' = {} ∧ (s'.conn i).inBuf = [] := by
  by_cases new : event = .accept
  · subst new
    obtain rfl := Except.ok.inj run
    refine ⟨rfl, ?_⟩
    by_cases first : i = s.conns.length
    · subst first
      simp [Server.conn]
    · rw [Server.conn_beyond]
      simp only [List.length_append, List.length_singleton]
      omega
  · have conns := conns_step firm.settled.awake run new
    have inBuf : (s'.conn i).inBuf = [] := by rw [Server.conn_beyond (conns ▸ beyond)]
    have added : arrived i s s' event = [] := by
      cases event with
      | recv j data => simp [arrived, inBuf]
      | _ => rfl
    obtain ⟨-, -, nothing, silent⟩ :=
      (ledger.talks i).absent (by rw [describes.joined, conns]; exact beyond)
    rw [heardFrom_concat shown_live, heard_] at nothing
    rw [saidTo_concat shown_live, said_] at silent
    refine ⟨?_, inBuf⟩
    rw [Dialogue.next, added]
    exact congrArg₂ (Dialogue.mk []) nothing silent

theorem kept_event (kept : Traced i (s, d)) (life : Life s (.event event) s') :
    Traced i (s', d.next i s event s') := by
  obtain ⟨labels, base, called, talk, b, describes, ledger, heard_, said_⟩ := kept.recorded
  have firm : Firm s := kept.firm
  obtain ⟨deals, b', step, describes'⟩ := step_acts firm describes life
  obtain ⟨base', called', talk', ledger', -⟩ := ledger_step ledger step
  have heardNow : (d.next i s event s').heard = heardFrom i (labels ++ [shown s event s']) := by
    rw [heardFrom_concat shown_live, ← heard_]
    rfl
  have saidNow : (d.next i s event s').said = saidTo i (labels ++ [shown s event s']) := by
    rw [saidTo_concat shown_live, ← said_]
    rfl
  have recorded : Recorded i s' (d.next i s event s') :=
    ⟨_, base', called', talk', b', describes', ledger', heardNow, saidNow⟩
  obtain ⟨run, fits⟩ := id life
  by_cases there : i < s.conns.length
  · refine ⟨firm_life firm life, kept.heeded.next (fed_step firm there run), fun beyond => ?_,
      recorded⟩
    have more : s.conns.length ≤ s'.conns.length := by
      by_cases new : event = .accept
      · subst new
        rw [← Except.ok.inj run]
        simp
      · rw [conns_step firm.settled.awake run new]
    exact absurd there (Nat.not_lt.mpr (more.trans beyond))
  · have beyond := Nat.le_of_not_lt there
    have blank : d = {} := kept.blank beyond
    subst blank
    obtain ⟨same, inBuf⟩ := next_absent firm beyond run describes' ledger' heard_.symm said_.symm
    refine ⟨firm_life firm life, ?_, fun _ => same, recorded⟩
    rw [same]
    exact ⟨List.prefix_rfl, fun _ => inBuf.symm⟩

theorem kept_restart (kept : Traced i (s, d)) (life : Life s .restart s') : Traced i (s', {}) := by
  obtain ⟨labels, base, called, talk, b, describes, ledger, -, -⟩ := kept.recorded
  have firm : Firm s := kept.firm
  obtain ⟨deals, b', step, describes'⟩ := restart_step firm describes life
  obtain ⟨base', called', talk', ledger', -⟩ := ledger_step ledger step
  refine ⟨firm_life firm life, ⟨List.prefix_rfl, fun isOpen => absurd ?_ isOpen.1⟩, fun _ => rfl,
    _, _, _, _, b', describes', ledger', heardFrom_restart.symm, saidTo_restart.symm⟩
  cases life with
  | restart again => exact congrArg Handler.pending (again.started.closed i)

theorem kept_step (p : Server × Dialogue) (turn : LifeEvent) (q : Server × Dialogue)
    (kept : Traced i p) (follows : DialogueStep i p turn q) : Traced i q := by
  cases follows with
  | event life => exact kept_event kept life
  | restart life => exact kept_restart kept life

/-- Since the last start, a connection has been answered request by request: what was taken
off it are the requests of a list of exchanges and the beginning of one more, what was said
to it are their answers, in their order, and the beginning of one more, and as long as it may
be read from, the rest of what it sent is in its buffer. -/
theorem answered_in_order {chunkSize : ℕ} {dataPath : Bytes} {turns : List LifeEvent}
    (pos : 0 < chunkSize) (run : Runs (DialogueStep i) (.empty chunkSize dataPath, {}) turns (s, d)) :
    ∃ (exchanges : List Exchange) (phase : Broker.Phase) (heard said : Bytes),
      (∀ exchange ∈ exchanges, exchange.Proper) ∧
      Stands s i phase ∧ Begun (fun _ _ => True) (fun _ _ => True) phase heard said ∧
      d.heard = exchanges.flatMap Exchange.heard ++ heard ∧
      d.said = exchanges.flatMap Exchange.said ++ said ∧
      d.heard <+: d.sent ∧ (Open (s.conn i) → d.sent = d.heard ++ (s.conn i).inBuf) := by
  have start : Traced i (.empty chunkSize dataPath, {}) := kept_empty pos
  have kept := Reachable.invariant start kept_step ⟨turns, run⟩
  obtain ⟨labels, base, called, talk, b, describes, ledger, heard_, said_⟩ := kept.recorded
  have talks := ledger.talks i
  obtain ⟨heard, said, unfinished, heardAll, saidAll⟩ := talks.unfinished
  have stands : Stands s i (b.phases i) := describes.stands i
  refine ⟨talk i, b.phases i, heard, said, talks.proper, stands,
    unfinished.mono (fun _ _ _ => trivial) fun _ _ _ _ _ => trivial, heard_.trans heardAll,
    said_.trans saidAll, kept.heeded.heard, kept.heeded.rest⟩

def following (i : ℕ) : Server × Dialogue → List ServerEvent → Option (Server × Dialogue) :=
  during (fun _ => true) i fun d s event t => d.next i s event t

theorem runs_following {events : List ServerEvent} {p q : Server × Dialogue}
    (run : following i p events = some q) :
    Runs (DialogueStep i) p (events.map LifeEvent.event) q :=
  runs_during LifeEvent.event id (fun _ _ _ _ _ _ life => .event life) run

theorem following_handover : (following 1 (.empty 16 [47], {}) handover).map Prod.snd =
    some ⟨ascii "get q\r\n", ascii "get q\r\n", ascii "VALUE q 0 2\r\nhi\r\nEND\r\n"⟩ := by decide

theorem answered_in_order_handover :
    ∃ (s : Server) (exchanges : List Exchange) (phase : Broker.Phase) (heard said : Bytes),
      (∀ exchange ∈ exchanges, exchange.Proper) ∧
      Stands s 1 phase ∧ Begun (fun _ _ => True) (fun _ _ => True) phase heard said ∧
      ascii "get q\r\n" = exchanges.flatMap Exchange.heard ++ heard ∧
      ascii "VALUE q 0 2\r\nhi\r\nEND\r\n" = exchanges.flatMap Exchange.said ++ said := by
  obtain ⟨⟨s, d⟩, run, same⟩ := Option.map_eq_some_iff.mp following_handover
  obtain rfl : d = _ := same
  obtain ⟨exchanges, phase, heard, said, proper, stands, unfinished, heard_, said_, -⟩ :=
    answered_in_order (by decide) (runs_following run)
  exact ⟨s, exchanges, phase, heard, said, proper, stands, unfinished, heard_, said_⟩

end Darner.Dialogues
