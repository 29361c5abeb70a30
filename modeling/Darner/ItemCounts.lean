import Darner.ItemBooks
import Darner.RequestLanguage

/-! The global item counters. An item that is being sent is missing from the queues and still
counted, and apart from that `items_enqueued - items_dequeued` is the sum of `count()`, as long
as no item comes back that was counted out: a `get` with `peek` counts the item that it gives
back, and a `get` with `open` counts an item that an `abort`, or the end of the connection,
gives back later. -/

namespace Darner.ItemCounts
open LabelledRuns ServerMoves ServerWaiters FetchDeeds FetchEvents ReliableFetch ServerCalls
open SetProgress ChunkStore ItemBooks

variable {s s' t : Server} {i address id : ℕ} {env : Env} {h : Handler}

/-- What puts an item back that is counted out: a `get` that gives back what it sends or what
an earlier one has sent, or the end of a connection that holds what it was sent. -/
def miscounts (s : Server) : ServerEvent → Bool
  | .readDone i _ =>
    match (s.conn i).pending, Server.lineLength (s.conn i).inBuf with
    | .readUntil, some n =>
      match Request.parse ((s.conn i).inBuf.take n) with
      | some req =>
        req.type = .get && (aborts { s.conn i with req := req } || peeks s { s.conn i with req := req })
      | none => false
    | .readUntil, none => s.capacity ≤ (s.conn i).inBuf.length && Kept (s.conn i)
    | _, _ => false
  | .readFailed i _ =>
    match (s.conn i).pending with
    | .readUntil => Server.lineLength (s.conn i).inBuf = none && Kept (s.conn i)
    | .readChunk n => n > 0 && Kept (s.conn i)
    | _ => false
  | .writeDone i _ =>
    match (s.conn i).pending with
    | .write _ .getOnWriteChunk =>
      peeking (s.conn i).req && (s.conn i).popStream.tell = (s.conn i).popStream.size
    | .write _ .hangUp => Kept (s.conn i)
    | _ => false
  | .writeFailed i _ =>
    match (s.conn i).pending with
    | .write _ _ => Kept (s.conn i)
    | _ => false
  | .callback address node _ =>
    match s.dueWaiter address node with
    | some w => ((s.object address).waiterWakeup node).2 && peeks s (s.conn w.cb)
    | none => false
  | _ => false

theorem owed_add_kept (h : Handler) :
    owed h + (if Kept h then 1 else 0) = if h.popStream.queue.isSome then 1 else 0 := by
  by_cases kept : Kept h
  · rw [owed_kept kept, if_pos kept, if_pos kept.1, zero_add]
  · rw [if_neg kept, add_zero]
    exact if_congr (and_iff_left kept) rfl rfl

theorem balances_same (told : SentAll (s.conn i)) : Balances i (surplus s + owed (s.conn i)) s :=
  ⟨rfl, told⟩

theorem balances_end {ok : Bool} (ready : Ready i s) :
    Balances i (surplus s + owed (s.conn i) + if Kept (s.conn i) then 1 else 0) (s.drop i ok) :=
  (balances_drop ready).mono (by rw [add_assoc, owed_add_kept])

theorem balances_endIf {p : Prop} [Decidable p] {ok : Bool} (ready : Ready i s)
    (told : SentAll (s.conn i)) :
    Balances i (surplus s + owed (s.conn i) + if p && Kept (s.conn i) then 1 else 0)
      (if p then s.drop i ok else s) := by
  by_cases holds : p
  · rw [if_pos holds, decide_eq_true holds, Bool.true_and]
    exact (balances_end ready).mono (by simp)
  · rw [if_neg holds, decide_eq_false holds, Bool.false_and]
    exact (balances_same told).mono (by simp)

theorem parse_known {line : Bytes} {req : Request} (parse : Request.parse line = some req) :
    req.type ≠ .unset := by
  obtain ⟨command, ending, -, -, denotes⟩ := Request.parse_some.mp parse
  exact Request.denotes_type denotes

theorem balances_dispatch (clean : ∀ n, env.io n = true) (ready : Ready i s) (told : SentAll (s.conn i))
    (idle : Idle (s.conn i)) (known : (s.conn i).req.type ≠ .unset)
    (spares : (s.conn i).req.type ≠ .destroy ∧ (s.conn i).req.type ≠ .flush)
    (run : s.dispatch i env = .ok s') :
    Balances i (surplus s + if (s.conn i).req.type = .get &&
      (aborts (s.conn i) || peeks s (s.conn i)) then 1 else 0) s' := by
  have there := ready.there
  have plain : ∀ {text}, Balances i (surplus s) (s.reply i text .readRequest) :=
    balances_reply there told idle (by simp)
  unfold Server.dispatch at run
  split at run
  case h_1 type => exact absurd type known
  case h_2 type =>
    rw [type, ← Except.ok.inj run]
    exact plain.mono (by simp)
  case h_3 type =>
    rw [type, ← Except.ok.inj run]
    exact plain.mono (by simp)
  case h_4 type => exact absurd type spares.1
  case h_5 type => exact absurd type spares.2
  case h_6 type =>
    unfold Server.flushAll at run
    split at run
    · rw [type, ← Except.ok.inj run]
      exact plain.mono (by simp)
    · cases run
  case h_7 type =>
    rw [type]
    exact (balances_set (s := s.countSet) there told idle run).mono (by simp; rfl)
  case h_8 type =>
    have ready' : Ready i s.countGet := ready.calm (calm_stats i s _)
    refine (balances_get clean ready' told idle run).mono ?_
    rw [type, decide_eq_true rfl, Bool.true_and]
    rfl

theorem idle_reading (reading : (s.conn i).pending = .readUntil) : Idle (s.conn i) :=
  idle_pending (by simp [reading]) (by simp [reading])

theorem balances_readDone (clean : ∀ n, env.io n = true) (settled : Settled s) (receives : AllReceiving s)
    (told : SentAll (s.conn i)) (kept : deleted s (.readDone i env) = none)
    (run : s.readDone i env = .ok s') :
    Balances i (surplus s + owed (s.conn i) + if miscounts s (.readDone i env) then 1 else 0) s' := by
  unfold Server.readDone at run
  dsimp only at run
  split at run
  case h_1 reading =>
    have there : i < s.conns.length := Server.conn_there (by simp [reading])
    have ready := settled.ready there
    have idle := idle_reading reading
    split at run
    case h_1 n line =>
      unfold Server.parseRequest at run
      dsimp only at run
      split at run
      case h_1 bad =>
        have blind : miscounts s (.readDone i env) = false := by
          simp [miscounts, reading, line, bad]
        rw [blind, owed_idle told idle, ← Except.ok.inj run]
        exact (balances_reply there told idle (by simp)).mono (by simp)
      case h_2 req parse =>
        have conn := Server.conn_setConn_self { s.conn i with req := req
                                                              inBuf := (s.conn i).inBuf.drop n } there
        have calm := calm_setConn (h := { s.conn i with req := req
                                                        inBuf := (s.conn i).inBuf.drop n })
          there (fun _ => rfl) fun _ => rfl
        have read : parsed s i (.readDone i env) = some req := by
          simp [parsed, reading, line, parse]
        have spares : req.type ≠ .destroy ∧ req.type ≠ .flush := by
          rw [deleted, read] at kept
          simpa using kept
        have dispatched := balances_dispatch clean (ready.calm calm) (by rw [conn]; exact told)
          (by rw [conn]; exact idle) (by rw [conn]; exact parse_known parse)
          (by rw [conn]; exact spares) run
        have misses : miscounts s (.readDone i env) = (req.type = .get &&
            (aborts { s.conn i with req := req } || peeks s { s.conn i with req := req })) := by
          simp only [miscounts, reading, line, parse]
        rw [misses, owed_idle told idle, add_zero]
        rw [conn] at dispatched
        exact dispatched
    case h_2 line =>
      have misses : miscounts s (.readDone i env) =
          (s.capacity ≤ (s.conn i).inBuf.length && Kept (s.conn i)) := by
        simp only [miscounts, reading, line]
      rw [misses, ← Except.ok.inj run]
      exact balances_endIf ready told
  case h_2 n reading =>
    have there : i < s.conns.length := Server.conn_there (by simp [reading])
    have idle : Idle (s.conn i) := idle_pending (by simp [reading]) (by simp [reading])
    have blind : miscounts s (.readDone i env) = false := by simp [miscounts, reading]
    rw [blind, if_neg Bool.false_ne_true, add_zero, ← Except.ok.inj run]
    split
    case isTrue enough =>
      rw [owed_idle told idle, add_zero]
      exact balances_setOnReadChunk clean (settled.ready there) told idle
        (receives.reading i n reading) enough
    case isFalse => exact balances_same told
  case h_3 notLine notChunk =>
    have blind : miscounts s (.readDone i env) = false := by
      cases other : (s.conn i).pending with
      | readUntil => exact absurd other notLine
      | readChunk n => exact absurd other (notChunk n)
      | write text next => simp [miscounts, other]
      | wait a node => simp [miscounts, other]
      | closed => simp [miscounts, other]
    rw [blind, ← Except.ok.inj run]
    exact (balances_same told).mono (by simp)

theorem balances_readFailed (settled : Settled s) (told : SentAll (s.conn i)) :
    Balances i (surplus s + owed (s.conn i) + if miscounts s (.readFailed i env) then 1 else 0)
      (s.readFailed i env) := by
  cases reading : (s.conn i).pending with
  | readUntil =>
    have there : i < s.conns.length := Server.conn_there (by simp [reading])
    simp only [Server.readFailed, miscounts, reading]
    exact balances_endIf (settled.ready there) told
  | readChunk n =>
    have there : i < s.conns.length := Server.conn_there (by simp [reading])
    simp only [Server.readFailed, miscounts, reading]
    exact balances_endIf (settled.ready there) told
  | write text next =>
    simp only [Server.readFailed, miscounts, reading]
    exact (balances_same told).mono (by simp)
  | wait a node =>
    simp only [Server.readFailed, miscounts, reading]
    exact (balances_same told).mono (by simp)
  | closed =>
    simp only [Server.readFailed, miscounts, reading]
    exact (balances_same told).mono (by simp)

theorem balances_notWriting (told : SentAll (s.conn i))
    (other : ∀ text next, (s.conn i).pending ≠ .write text next) :
    Balances i (surplus s + owed (s.conn i) + if miscounts s (.writeDone i env) then 1 else 0)
      (s.writeDone i env) ∧
    Balances i (surplus s + owed (s.conn i) + if miscounts s (.writeFailed i env) then 1 else 0)
      (s.writeFailed i env) := by
  cases pending : (s.conn i).pending with
  | write text next => exact absurd pending (other text next)
  | readUntil | readChunk | wait | closed =>
    simp only [Server.writeDone, Server.writeFailed, miscounts, pending]
    exact ⟨(balances_same told).mono (by simp), (balances_same told).mono (by simp)⟩

theorem balances_writeDone (clean : ∀ n, env.io n = true) (settled : Settled s)
    (told : SentAll (s.conn i)) :
    Balances i (surplus s + owed (s.conn i) + if miscounts s (.writeDone i env) then 1 else 0)
      (s.writeDone i env) := by
  by_cases writing : ∃ text next, (s.conn i).pending = .write text next
  · obtain ⟨text, next, writing⟩ := writing
    have there : i < s.conns.length := Server.conn_there (by simp [writing])
    have ready := settled.ready there
    cases next with
    | readRequest =>
      have idle : Idle (s.conn i) := idle_pending (by simp [writing]) (by simp [writing])
      simp only [Server.writeDone, miscounts, writing]
      rw [owed_idle told idle]
      refine (balances_idle (h := { s.conn i with pending := .readUntil }) there told idle rfl
        ?_).mono (by simp)
      rintro ⟨text', wrong⟩
      cases wrong
    | getOnWriteChunk =>
      obtain ⟨isOpen, begun, -⟩ := (settled.phase i).serving ⟨text, writing⟩
      obtain ⟨a, held⟩ := Option.isSome_iff_exists.mp isOpen
      simp only [Server.writeDone, miscounts, writing]
      rw [owed_serving isOpen ⟨text, writing⟩]
      exact balances_getOnWriteChunk clean ready ⟨held, rfl⟩ begun
    | hangUp =>
      simp only [Server.writeDone, miscounts, writing, decide_eq_true_eq]
      exact balances_end ready
  · exact (balances_notWriting told fun text next same => writing ⟨text, next, same⟩).1

theorem balances_writeFailed (settled : Settled s) (told : SentAll (s.conn i)) :
    Balances i (surplus s + owed (s.conn i) + if miscounts s (.writeFailed i env) then 1 else 0)
      (s.writeFailed i env) := by
  by_cases writing : ∃ text next, (s.conn i).pending = .write text next
  · obtain ⟨text, next, writing⟩ := writing
    have there : i < s.conns.length := Server.conn_there (by simp [writing])
    simp only [Server.writeFailed, miscounts, writing, decide_eq_true_eq]
    exact balances_end (settled.ready there)
  · exact (balances_notWriting told fun text next same => writing ⟨text, next, same⟩).2

theorem balances_recv {data : Bytes} (told : SentAll (s.conn i)) :
    Balances i (surplus s + owed (s.conn i)) (s.recv i data) := by
  rcases recv_cases s i data with same | ⟨-, ⟨reading, -, same⟩ | ⟨n, -, reading, same⟩⟩
  · rw [same]
    exact balances_same told
  · have idle := idle_reading reading
    rw [same, owed_idle told idle, add_zero]
    exact balances_idle (Server.conn_there (by simp [reading])) told idle rfl idle.1
  · have idle : Idle (s.conn i) := idle_pending (by simp [reading]) (by simp [reading])
    rw [same, owed_idle told idle, add_zero]
    refine balances_idle (Server.conn_there (by simp [reading])) told idle rfl ?_
    rintro ⟨text, wrong⟩
    cases wrong

theorem popBegin_any {q q' : Queue} (test : ℕ → Bool) (returned : q'.returned = q.returned)
    (tail : q'.queueTail = q.queueTail) (head : q'.queueHead = q.queueHead) :
    (q'.popBegin.any fun popped => test popped.1) = q.popBegin.any fun popped => test popped.1 := by
  unfold Queue.popBegin
  rw [returned, tail, head]
  split
  · rfl
  · split <;> rfl

theorem peeks_woken (node : ℕ) (h : Handler) :
    peeks (s.setObject address ((s.object address).waiterWakeup node).1) h = peeks s h := by
  have same : ∀ a, (((s.setObject address ((s.object address).waiterWakeup node).1).object
        a).popBegin.any fun popped =>
          single ((s.setObject address ((s.object address).waiterWakeup node).1).object a) popped.1) =
      (s.object a).popBegin.any fun popped => single (s.object a) popped.1 := by
    intro a
    rcases s.object_setObject_cases address ((s.object address).waiterWakeup node).1 a with
      kept | ⟨rfl, set⟩
    · rw [kept]
    · rw [set]
      exact popBegin_any (single (s.object a)) rfl rfl rfl
  unfold peeks
  simp only [same]
  rfl

theorem balances_callback {w : Waiter} {node : ℕ} (clean : ∀ n, env.io n = true)
    (settled : Settled s) (told : SentAll (s.conn w.cb)) (due : s.dueWaiter address node = some w)
    (run : s.callback address node env = .ok s') :
    Balances w.cb (surplus s + owed (s.conn w.cb) +
      if miscounts s (.callback address node env) then 1 else 0) s' := by
  have mem : w ∈ (s.object address).waiters := List.mem_of_find?_eq_some due
  obtain ⟨-, waits⟩ := settled.awake.waits address w mem
  have there : w.cb < s.conns.length := Server.conn_there (by simp [waits.pending])
  have idle : Idle (s.conn w.cb) := idle_pending (by simp [waits.pending]) (by simp [waits.pending])
  have closed : (s.conn w.cb).popStream.queue = none := waits.closed
  have keeps : aborts (s.conn w.cb) = false := by simp [aborts, closed]
  have misses : miscounts s (.callback address node env) =
      (((s.object address).waiterWakeup node).2 && peeks s (s.conn w.cb)) := by
    simp only [miscounts, due]
  have balance := surplus_same s address
    (q := ((s.object address).waiterWakeup node).1) ⟨rfl, rfl, rfl, rfl, fun _ => rfl⟩
  rw [misses, owed_closed closed, add_zero, ← balance]
  simp only [Server.callback, due] at run
  cases success : ((s.object address).waiterWakeup node).2 with
  | true =>
    rw [success, if_pos rfl] at run
    have calm := calm_unseen w.cb (Server.waiter_there mem)
      (q := ((s.object address).waiterWakeup node).1) ⟨rfl, rfl, rfl, rfl, rfl, rfl⟩
    have ready := (settled.ready there).calm calm
    refine (balances_get clean ready told idle run).mono ?_
    rw [peeks_woken, Bool.true_and]
    change _ + (if aborts (s.conn w.cb) || peeks s (s.conn w.cb) then 1 else 0) = _
    rw [keeps, Bool.false_or]
  | false =>
    rw [success, if_neg Bool.false_ne_true] at run
    rw [← Except.ok.inj run]
    rw [Bool.false_and, if_neg Bool.false_ne_true, add_zero]
    exact balances_closed (h := { s.conn w.cb with pending := .write (ascii "END\r\n") .readRequest })
      there closed

theorem step_balances {event : ServerEvent} (clean : ∀ n, outcomes event n = true)
    (settled : Settled s) (receives : AllReceiving s) (told : SentAll (s.conn i))
    (kept : deleted s event = none) (mine : serving s event = some i) (run : s.Step event s') :
    Balances i (surplus s + owed (s.conn i) + if miscounts s event then 1 else 0) s' := by
  cases event with
  | accept => cases mine
  | expire a node => cases mine
  | recv j data =>
    obtain rfl := Option.some.inj mine
    rw [← Except.ok.inj run]
    exact (balances_recv told).mono (by simp [miscounts])
  | readDone j env =>
    obtain rfl := Option.some.inj mine
    exact balances_readDone clean settled receives told kept run
  | readFailed j env =>
    obtain rfl := Option.some.inj mine
    rw [← Except.ok.inj run]
    exact balances_readFailed settled told
  | writeDone j env =>
    obtain rfl := Option.some.inj mine
    rw [← Except.ok.inj run]
    exact balances_writeDone clean settled told
  | writeFailed j env =>
    obtain rfl := Option.some.inj mine
    rw [← Except.ok.inj run]
    exact balances_writeFailed settled told
  | callback a node env =>
    obtain ⟨w, due, rfl⟩ := Option.map_eq_some_iff.mp mine
    exact balances_callback clean settled told due run

def owing (s : Server) : ℤ := ∑ j ∈ Finset.range s.conns.length, owed (s.conn j)

/-- How far the counters are off, with the items that are being sent. -/
def drift (s : Server) : ℤ := surplus s + owing s

theorem owing_range {n : ℕ} (le : s.conns.length ≤ n) :
    owing s = ∑ j ∈ Finset.range n, owed (s.conn j) := by
  refine Finset.sum_subset (Finset.range_mono le) fun j _ beyond => ?_
  rw [Finset.mem_range, Nat.not_lt] at beyond
  rw [Server.conn_beyond beyond]
  exact owed_closed rfl

theorem step_others_owe {event : ServerEvent} {j : ℕ} (awake : Awake none s)
    (run : s.Step event s') (ne : serving s event ≠ some j) :
    owed (s'.conn j) = owed (s.conn j) ∧ (SentAll (s.conn j) → SentAll (s'.conn j)) := by
  by_cases there : j < s.conns.length
  · rw [step_others awake run there ne]
    exact ⟨rfl, id⟩
  · have closed : (s'.conn j).popStream.queue = none := by
      rcases step_conns awake run with same | ⟨more, new⟩
      · rw [Server.conn_beyond (by omega)]
      · by_cases last : j = s.conns.length
        · rw [last, new]
        · rw [Server.conn_beyond (by omega)]
    rw [owed_closed closed, Server.conn_beyond (by omega)]
    exact ⟨(owed_closed rfl).symm, fun _ => told_closed closed⟩

theorem step_owing {event : ServerEvent} (awake : Awake none s) (run : s.Step event s')
    (mine : serving s event = some i) :
    owing s' - owed (s'.conn i) = owing s - owed (s.conn i) := by
  have wide : i ∈ Finset.range (s.conns.length + s'.conns.length + i + 1) :=
    Finset.mem_range.mpr (by omega)
  have rest : ∑ j ∈ (Finset.range (s.conns.length + s'.conns.length + i + 1)).erase i,
      owed (s'.conn j) =
      ∑ j ∈ (Finset.range (s.conns.length + s'.conns.length + i + 1)).erase i, owed (s.conn j) := by
    refine Finset.sum_congr rfl fun j mem => ?_
    have ne : serving s event ≠ some j := by
      rw [mine]
      rintro same
      exact Finset.ne_of_mem_erase mem (Option.some.inj same).symm
    exact (step_others_owe awake run ne).1
  have after := Finset.add_sum_erase _ (fun j => owed (s'.conn j)) wide
  have before := Finset.add_sum_erase _ (fun j => owed (s.conn j)) wide
  rw [owing_range (s := s') (n := s.conns.length + s'.conns.length + i + 1) (by omega),
    owing_range (s := s) (n := s.conns.length + s'.conns.length + i + 1) (by omega), ← after, ← before,
    rest]
  ring

theorem step_unserved {event : ServerEvent} (run : s.Step event s')
    (nobody : serving s event = none) :
    surplus s' = surplus s ∧ miscounts s event = false := by
  cases event with
  | accept =>
    rw [← Except.ok.inj run]
    exact ⟨rfl, rfl⟩
  | expire a node =>
    rw [← Except.ok.inj run]
    exact ⟨surplus_same _ _ ⟨rfl, rfl, rfl, rfl, fun _ => rfl⟩, rfl⟩
  | callback a node env =>
    have none : s.dueWaiter a node = none := Option.map_eq_none_iff.mp nobody
    have run : s.callback a node env = .ok s' := run
    simp only [Server.callback, none, Except.ok.injEq] at run
    rw [← run]
    exact ⟨rfl, by simp only [miscounts, none]⟩
  | recv | readDone | readFailed | writeDone | writeFailed => cases nobody

theorem step_drift {event : ServerEvent} (clean : ∀ n, outcomes event n = true)
    (settled : Settled s) (receives : AllReceiving s) (told : ∀ j, SentAll (s.conn j))
    (kept : deleted s event = none) (run : s.Step event s') :
    drift s' = drift s + (if miscounts s event then 1 else 0) ∧ ∀ j, SentAll (s'.conn j) := by
  have awake := settled.awake
  cases mine : serving s event with
  | none =>
    obtain ⟨same, blind⟩ := step_unserved run mine
    have others := fun j => step_others_owe (j := j) awake run (by simp [mine])
    refine ⟨?_, fun j => (others j).2 (told j)⟩
    have owes : owing s' = owing s := by
      rw [owing_range (s := s') (n := s.conns.length + s'.conns.length) (by omega),
        owing_range (s := s) (n := s.conns.length + s'.conns.length) (by omega)]
      exact Finset.sum_congr rfl fun j _ => (others j).1
    rw [drift, drift, same, owes, blind, if_neg Bool.false_ne_true, add_zero]
  | some i =>
    have books := step_balances clean settled receives (told i) kept mine run
    have owes := step_owing awake run mine
    refine ⟨?_, fun j => ?_⟩
    · have balance := books.balance
      rw [drift, drift]
      omega
    · by_cases same : j = i
      · rw [same]
        exact books.told
      · have ne : serving s event ≠ some j := by
          rw [mine]
          rintro wrong
          exact same (Option.some.inj wrong).symm
        exact (step_others_owe awake run ne).2 (told j)

def Catalogued (s : Server) : Prop :=
  ∀ a < s.objects.length, ∃ name, s.queues.lookup name = some a

theorem catalogued_withQueue {name : Bytes} (absent : s.queues.lookup name = none)
    (catalogued : Catalogued s) : Catalogued (s.withQueue name) := by
  intro a made
  rw [Server.withQueue, List.length_append, List.length_singleton] at made
  by_cases new : a = s.objects.length
  · exact ⟨name, by rw [Server.lookup_withQueue, if_pos rfl, new]⟩
  · obtain ⟨other, found⟩ := catalogued a (by omega)
    exact ⟨other, Server.lookup_withQueue_old absent found⟩

theorem call_catalogued {io : Io} {deletes : Bytes → Prop} (none : ∀ name, ¬deletes name)
    (s s' : Server) (there : i < s.conns.length) (catalogued : Catalogued s)
    (call : Call i io deletes s s') : Catalogued s' := by
  rcases call.cases there with ⟨name, absent, -, rfl⟩ | ⟨name, a, asked, -, -⟩ | keeps
  · exact catalogued_withQueue absent catalogued
  · exact absurd asked (none name)
  · intro a made
    rw [keeps.objects] at made
    rw [keeps.queues]
    exact catalogued a made

theorem Catalogued.set {q : Queue} (catalogued : Catalogued s) :
    Catalogued (s.setObject address q) := fun a made =>
  catalogued a (lt_of_lt_of_eq made List.length_set)

theorem step_catalogued {event : ServerEvent} (awake : Awake none s) (catalogued : Catalogued s)
    (kept : deleted s event = none) (run : s.Step event s') : Catalogued s' := by
  cases step_serves awake run with
  | nothing => exact catalogued
  | accept => exact catalogued
  | expire a node => exact catalogued.set
  | @calls i t u _ who there begins calls leaves =>
    have begun : Catalogued t := by
      cases begins with
      | ready => exact catalogued
      | woken => exact catalogued.set
    have spared : ∀ name, ¬Deletes s event name := by
      intro name asked
      rw [Deletes, kept] at asked
      cases asked
    have stop := (calls.invariant (call_catalogued spared) (begins.conns ▸ there) begun).2
    cases leaves with
    | done => exact stop
    | waits => exact stop.set

def queued (s : Server) : ℕ :=
  (s.queueNames.map fun name => (s.object ((s.queues.lookup name).getD 0)).count).sum

theorem total_range (s : Server) :
    total s = ∑ a ∈ Finset.range s.objects.length, ((s.object a).count : ℤ) := by
  have rows : s.objects = (List.range s.objects.length).map s.object := by
    refine List.ext_getElem (by simp) fun a made _ => ?_
    simp [Server.object, made]
  have sum : ∑ a ∈ Finset.range s.objects.length, ((s.object a).count : ℤ) =
      (((List.range s.objects.length).map s.object).map fun q => (q.count : ℤ)).sum := by
    rw [List.map_map]
    rfl
  rw [sum, ← rows]
  rfl

theorem total_queued (awake : Awake none s) (catalogued : Catalogued s) : total s = queued s := by
  have names : (queued s : ℤ) =
      ∑ name ∈ s.queues.keys, ((s.object ((s.queues.lookup name).getD 0)).count : ℤ) := by
    rw [queued, Server.queueNames, ← List.sum_toFinset _ (Finset.sort_nodup _ _),
      Finset.sort_toFinset]
    exact map_sum (Nat.castAddMonoidHom ℤ) _ _
  have known : ∀ name ∈ s.queues.keys, ∃ a, s.queues.lookup name = some a := by
    intro name mem
    exact Finmap.mem_iff.mp (Finmap.mem_keys.mp mem)
  rw [total_range, names]
  symm
  refine Finset.sum_nbij (fun name => (s.queues.lookup name).getD 0) (fun name mem => ?_) ?_ ?_
    fun _ _ => rfl
  · obtain ⟨a, found⟩ := known name mem
    rw [found]
    exact Finset.mem_range.mpr (awake.made name a found)
  · intro name mem name' mem' same
    obtain ⟨a, found⟩ := known name mem
    obtain ⟨a', found'⟩ := known name' mem'
    simp only [found, found', Option.getD_some] at same
    exact awake.distinct name name' a found (same ▸ found')
  · intro a mem
    obtain ⟨name, found⟩ := catalogued a (Finset.mem_range.mp mem)
    exact ⟨name, Finmap.mem_keys.mpr (Finmap.mem_iff.mpr ⟨a, found⟩), by simp [found]⟩

/-- An event of a run in which no queue is deleted and no journal call fails. -/
structure Undisturbed (s : Server) (event : ServerEvent) (s' : Server) : Prop where
  life : Life s (.event event) s'
  kept : deleted s event = none
  clean : ∀ n, outcomes event n = true

/-- No connection has an open item or an unfinished set. -/
def Quiescent (s : Server) : Prop :=
  ∀ i, (s.conn i).popStream.queue = none ∧ (s.conn i).pushStream.queue = none

structure CountersAgree (s : Server) : Prop where
  counters : (s.stats.itemsEnqueued : ℤ) - s.stats.itemsDequeued = queued s
  reported : s.stats.itemsEnqueued - s.stats.itemsDequeued = queued s

theorem agrees_iff (awake : Awake none s) (catalogued : Catalogued s) (quiet : Quiescent s) :
    CountersAgree s ↔ drift s = 0 := by
  have nobody : owing s = 0 := Finset.sum_eq_zero fun j _ => owed_closed (quiet j).1
  have total := total_queued awake catalogued
  rw [drift, nobody, add_zero, surplus, total]
  constructor
  · intro agrees
    have counters := agrees.counters
    omega
  · intro same
    exact ⟨by omega, by omega⟩

structure Booked (s : Server) : Prop where
  settled : Settled s
  steady : Steady s
  told : ∀ j, SentAll (s.conn j)
  catalogued : Catalogued s

theorem step_booked (s : Server) (event : ServerEvent) (s' : Server) (booked : Booked s)
    (step : Undisturbed s event s') :
    Booked s' ∧ drift s' = drift s + if miscounts s event then 1 else 0 := by
  obtain ⟨life, kept, clean⟩ := step
  have awake := booked.settled.awake
  obtain ⟨run, -⟩ := id life
  obtain ⟨moved, told⟩ := step_drift clean booked.settled booked.steady.receives booked.told kept run
  exact ⟨⟨life_settled s _ s' booked.settled life,
    (life_steady s _ s' ⟨awake, booked.steady⟩ life).2, told,
    step_catalogued awake booked.catalogued kept run⟩, moved⟩

def Counted (s : Server) (events : List ServerEvent) (s' : Server) : Prop :=
  Runs (Guarded (miscounts · · = false) Undisturbed) s events s'

theorem runs_booked {events : List ServerEvent} (booked : Booked s)
    (run : Runs Undisturbed s events s') : Booked s' :=
  run.preserves (fun s event s' _ booked step => (step_booked s event s' booked step).1)
    (fun _ _ => trivial) booked

theorem booked_empty {chunkSize : ℕ} {dataPath : Bytes} (pos : 0 < chunkSize) :
    Booked (.empty chunkSize dataPath) where
  settled := settled_empty pos
  steady := (reachable_steady pos .refl).2
  told j := by
    rw [(Server.started_empty chunkSize dataPath pos).closed j]
    exact told_closed rfl
  catalogued a made := absurd made (Nat.not_lt_zero a)

/-- In every run from an empty data directory in which no queue is deleted and no journal
call fails, and in every state of it in which no connection has an open item or an unfinished
set: the item counters agree with the queues if and only if no event has put back an item
that was counted out. -/
theorem counters_agree_iff {chunkSize : ℕ} {dataPath : Bytes} {events : List ServerEvent}
    (pos : 0 < chunkSize) (run : Runs Undisturbed (.empty chunkSize dataPath) events s)
    (quiet : Quiescent s) : CountersAgree s ↔ Counted (.empty chunkSize dataPath) events s := by
  have start : Booked (.empty chunkSize dataPath) := booked_empty pos
  have zero : drift (.empty chunkSize dataPath) = 0 := rfl
  have booked := runs_booked start run
  rw [agrees_iff booked.settled.awake booked.catalogued quiet, ← zero]
  exact run.level_eq_iff step_booked start

def undisturbed (s : Server) (event : ServerEvent) : Bool :=
  deleted s event = none && (fitting s [event]).isSome

theorem undisturbed_step {event : ServerEvent} (clean : ∀ n, outcomes event n = true)
    (allowed : undisturbed s event = true) (step : s.Step event s') : Undisturbed s event s' := by
  rw [undisturbed, Bool.and_eq_true, decide_eq_true_eq] at allowed
  obtain ⟨t, run⟩ := Option.isSome_iff_exists.mp allowed.2
  obtain ⟨u, life, -⟩ := fitting_cons run
  obtain ⟨step', fits⟩ := id life
  obtain rfl : u = s' := Except.ok.inj (step'.symm.trans step)
  exact ⟨life, allowed.1, clean⟩

theorem runs_guard {P : Server → ServerEvent → Server → Prop} {guard : Server → ServerEvent → Bool}
    {events : List ServerEvent} (run : Runs (Guarded (guard · · = true) Server.Step) s events s')
    (each : ∀ s, ∀ event ∈ events, ∀ t, guard s event = true → s.Step event t → P s event t) :
    Runs P s events s' := by
  induction run with
  | nil => exact .nil _
  | cons first _ ih =>
    exact .cons (each _ _ List.mem_cons_self _ first.1 first.2)
      (ih fun s event mem => each s event (List.mem_cons_of_mem _ mem))

theorem quiescent_one (one : s.conns.length = 1) (pop : (s.conn 0).popStream.queue = none)
    (push : (s.conn 0).pushStream.queue = none) : Quiescent s := by
  intro j
  by_cases first : j = 0
  · rw [first]
    exact ⟨pop, push⟩
  · rw [Server.conn_beyond (by omega)]
    exact ⟨rfl, rfl⟩

def setThenGet (line : String) : List ServerEvent :=
  let env : Env := ⟨fun _ => true, 0, 0, 0⟩
  [.accept, .recv 0 (ascii "set q 0 0 1\r\n"), .readDone 0 env, .recv 0 (ascii "x\r\n"),
    .readDone 0 env, .writeDone 0 env, .recv 0 (ascii line), .readDone 0 env, .writeDone 0 env]

theorem clean_setThenGet (line : String) :
    ∀ event ∈ setThenGet line, ∀ n, outcomes event n = true := by
  simp [setThenGet, outcomes]

theorem counters_agree_set_get : ∃ s,
    Runs Undisturbed (.empty 16 [47]) (setThenGet "get q\r\n") s ∧ Quiescent s ∧
    s.stats.itemsEnqueued = 1 ∧ s.stats.itemsDequeued = 1 ∧ CountersAgree s := by
  have facts : ((Server.empty 16 [47]).runIf (fun s event => undisturbed s event && !miscounts s event)
      (setThenGet "get q\r\n")).map (fun s =>
        decide (s.conns.length = 1) && decide ((s.conn 0).popStream.queue = none) &&
        decide ((s.conn 0).pushStream.queue = none) && decide (s.stats.itemsEnqueued = 1) &&
        decide (s.stats.itemsDequeued = 1)) = some true := by decide
  simp only [Option.map_eq_some_iff, Bool.and_eq_true, decide_eq_true_iff, and_assoc] at facts
  obtain ⟨s, run, one, pop, push, enqueued, dequeued⟩ := facts
  have clean := clean_setThenGet "get q\r\n"
  have runs := Server.runs_of_runIf run
  have plain : Runs Undisturbed (.empty 16 [47]) (setThenGet "get q\r\n") s :=
    runs_guard runs fun s event mem t allowed step =>
      undisturbed_step (clean event mem) (Bool.and_eq_true_iff.mp allowed).1 step
  have counted : Counted (.empty 16 [47]) (setThenGet "get q\r\n") s :=
    runs_guard runs fun s event mem t allowed step => by
      obtain ⟨kept, right⟩ := Bool.and_eq_true_iff.mp allowed
      exact ⟨by simpa using right, undisturbed_step (clean event mem) kept step⟩
  have quiet : Quiescent s := quiescent_one one pop push
  exact ⟨s, plain, quiet, enqueued, dequeued, (counters_agree_iff (by decide) plain quiet).mpr counted⟩

/-- A `get` with `peek` counts the item that stays in the queue. -/
theorem counters_disagree_peek : ∃ s,
    Runs Undisturbed (.empty 16 [47]) (setThenGet "get q/peek\r\n") s ∧ Quiescent s ∧
    s.stats.itemsEnqueued - s.stats.itemsDequeued = 0 ∧ queued s = 1 ∧ ¬CountersAgree s := by
  have facts : ((Server.empty 16 [47]).runIf undisturbed (setThenGet "get q/peek\r\n")).map (fun s =>
        decide (s.conns.length = 1) && decide ((s.conn 0).popStream.queue = none) &&
        decide ((s.conn 0).pushStream.queue = none) &&
        decide (s.stats.itemsEnqueued - s.stats.itemsDequeued = 0) &&
        decide (total s = 1)) = some true := by decide
  simp only [Option.map_eq_some_iff, Bool.and_eq_true, decide_eq_true_iff, and_assoc] at facts
  obtain ⟨s, run, one, pop, push, none, left⟩ := facts
  have plain : Runs Undisturbed (.empty 16 [47]) (setThenGet "get q/peek\r\n") s :=
    runs_guard (Server.runs_of_runIf run) fun s event mem t allowed step =>
      undisturbed_step (clean_setThenGet _ event mem) allowed step
  have booked := runs_booked (booked_empty (by decide)) plain
  have kept : queued s = 1 := by
    have total := total_queued booked.settled.awake booked.catalogued
    omega
  refine ⟨s, plain, quiescent_one one pop push, none, kept, fun agrees => ?_⟩
  have reported := agrees.reported
  omega

end Darner.ItemCounts
