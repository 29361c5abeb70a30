import Darner.GetReplies
import Darner.QueueWaiters

/-! The books of a connection. The server counts an item in when its `set` is done, and out
when a `get` has sent all of it; the queues report by `count()` the items that nobody has
popped. What a connection owes is the item that it has popped and not counted out yet. Here
each handler function is audited: by how much it moves the queues, the counters and the debt
of its connection. -/

namespace Darner.ItemBooks
open OrderedStore LabelledRuns ChunkLayout ReadProgress ServerMoves FetchDeeds FetchEvents
open ServerCalls SetProgress ChunkedItems SetBodies GetReplies

variable {s s' t : Server} {i address id : ℕ} {env : Env} {h : Handler}

def total (s : Server) : ℤ := (s.objects.map fun q => (q.count : ℤ)).sum

/-- How far the queues are ahead of the counters. -/
def surplus (s : Server) : ℤ := s.stats.itemsDequeued + total s - s.stats.itemsEnqueued

theorem sum_map_set {α : Type} (f : α → ℤ) {table : List α} {n : ℕ} {row : α} (row' : α)
    (there : table[n]? = some row) :
    ((table.set n row').map f).sum = (table.map f).sum - f row + f row' := by
  obtain ⟨bound, rfl⟩ := List.getElem?_eq_some_iff.mp there
  rw [List.map_set, List.sum_set', dif_pos (by simpa using bound), List.getElem_map]
  ring

theorem surplus_setConn (s : Server) (i : ℕ) (h : Handler) :
    surplus (s.setConn i h) = surplus s := rfl

theorem surplus_setObject (q : Queue) (made : address < s.objects.length) :
    surplus (s.setObject address q) = surplus s - (s.object address).count + q.count := by
  have row : s.objects[address]? = some (s.object address) := by
    simp [Server.object, made]
  have sum : total (s.setObject address q) = total s - (s.object address).count + q.count :=
    sum_map_set (fun q : Queue => (q.count : ℤ)) q row
  rw [surplus, sum, surplus]
  change s.stats.itemsDequeued + _ - (s.stats.itemsEnqueued : ℤ) = _
  ring

theorem surplus_same (s : Server) (address : ℕ) {q : Queue} (same : Queue.SameItems (s.object address) q) :
    surplus (s.setObject address q) = surplus s := by
  by_cases made : address < s.objects.length
  · rw [surplus_setObject q made, same.count]
    ring
  · rw [Server.setObject_beyond q (by omega)]

theorem surplus_withQueue (s : Server) (name : Bytes) :
    surplus (s.withQueue name) = surplus s := by
  have sum : total (s.withQueue name) = total s := by
    simp [total, Server.withQueue, Queue.blank, Queue.count]
  rw [surplus, sum]
  rfl

theorem surplus_queueAt {name : Bytes} (found : s.queueAt name = .ok (address, t)) :
    surplus t = surplus s := by
  rcases Server.queueAt_ok found with ⟨-, rfl⟩ | ⟨-, -, rfl⟩
  · rfl
  · exact surplus_withQueue s name

theorem surplus_countDequeued (s : Server) : surplus s.countDequeued = surplus s + 1 := by
  simp only [surplus, Server.countDequeued, total]
  push_cast
  ring

theorem surplus_popBegin {q : Queue} (ready : Ready i s)
    (pop : (s.object address).popBegin = some (id, q)) :
    surplus (s.setObject address q) = surplus s - 1 := by
  have count := Queue.count_popBegin pop (ready.sound address).cons.own.tail_le_head
  rw [surplus_setObject q (popBegin_made pop)]
  omega

theorem surplus_popEnd {erase ok : Bool} {header : Header} {q : Queue} (ready : Ready i s)
    (held : Holds s i address id)
    (pop : (s.object address).popEnd erase id header ok = .ok q) :
    surplus (s.setObject address q) = surplus s + if erase then 0 else 1 := by
  have sound := ready.sound address
  have count := Queue.count_popEnd pop (sound.cons.own.held_not_returned id held.mem)
  rw [surplus_setObject q (holds_made held sound), count]
  split
  · ring
  · push_cast
    ring

theorem sameItems_destruct (stream : OQStream) (q : Queue) (ok : Bool) :
    Queue.SameItems q (stream.destruct q ok) := by
  rcases stream.destruct_queue q ok with same | erased
  · rw [same]
    exact .refl q
  · exact Queue.sameItems_eraseChunks erased

theorem surplus_dropPush (s : Server) (i : ℕ) (ok : Bool) :
    surplus (s.dropPush i ok) = surplus s := by
  unfold Server.dropPush
  split
  · rfl
  · rw [surplus_setConn, surplus_same _ _ (sameItems_destruct _ _ ok)]

def Kept (h : Handler) : Prop :=
  h.popStream.queue.isSome ∧ h.popStream.header.end_ ≤ h.popStream.chunkPos ∧ ¬Serving h

def serves : Pending → Bool
  | .write _ .getOnWriteChunk => true
  | _ => false

theorem serves_iff : serves h.pending = true ↔ Serving h := by
  unfold Serving
  cases h.pending with
  | write text next => cases next <;> simp [serves]
  | readUntil | readChunk | wait | closed => simp [serves]

instance (h : Handler) : Decidable (Serving h) := decidable_of_iff _ serves_iff

instance (h : Handler) : Decidable (Kept h) :=
  inferInstanceAs (Decidable (_ ∧ _ ∧ _))

/-- An item that is popped and not yet counted out. -/
def owed (h : Handler) : ℤ := if h.popStream.queue.isSome ∧ ¬Kept h then 1 else 0

def SentAll (h : Handler) : Prop :=
  Idle h → h.popStream.queue.isSome → h.popStream.header.end_ ≤ h.popStream.chunkPos

theorem owed_closed (closed : h.popStream.queue = none) : owed h = 0 :=
  if_neg (by simp [closed])

theorem told_closed (closed : h.popStream.queue = none) : SentAll h := by
  intro _ isOpen
  rw [closed] at isOpen
  cases isOpen

theorem owed_kept (kept : Kept h) : owed h = 0 := if_neg fun ⟨_, lacks⟩ => lacks kept

theorem owed_serving (isOpen : h.popStream.queue.isSome) (serving : Serving h) : owed h = 1 :=
  if_pos ⟨isOpen, fun kept => kept.2.2 serving⟩

theorem owed_unread (isOpen : h.popStream.queue.isSome)
    (unread : h.popStream.chunkPos < h.popStream.header.end_) : owed h = 1 :=
  if_pos ⟨isOpen, fun kept => absurd kept.2.1 (Nat.not_le.mpr unread)⟩

theorem owed_same {h' : Handler} (pop : h'.popStream = h.popStream)
    (stage : Serving h' ↔ Serving h) : owed h' = owed h := by
  have kept : Kept h' ↔ Kept h := by rw [Kept, Kept, pop, stage]
  exact if_congr (by rw [pop, kept]) rfl rfl

theorem owed_idle (told : SentAll h) (idle : Idle h) : owed h = 0 := by
  by_cases isOpen : h.popStream.queue.isSome
  · exact owed_kept ⟨isOpen, told idle isOpen, idle.1⟩
  · exact owed_closed (by simpa using isOpen)

/-- What the callbacks of connection `i` leave: the queues ahead by `n`, with what the
connection owes. -/
structure Balances (i : ℕ) (n : ℤ) (s : Server) : Prop where
  balance : surplus s + owed (s.conn i) = n
  told : SentAll (s.conn i)

theorem Balances.mono {n m : ℤ} (balances : Balances i n s) (same : n = m) : Balances i m s :=
  same ▸ balances

theorem balances_idle (there : i < s.conns.length) (told : SentAll (s.conn i))
    (idle : Idle (s.conn i)) (pop : h.popStream = (s.conn i).popStream) (stage : ¬Serving h) :
    Balances i (surplus s) (s.setConn i h) := by
  have told' : SentAll h := by
    intro _ isOpen
    rw [pop] at isOpen ⊢
    exact told idle isOpen
  refine ⟨?_, ?_⟩
  · rw [Server.conn_setConn_self h there, surplus_setConn,
      owed_same pop (iff_of_false stage idle.1), owed_idle told idle, add_zero]
  · rw [Server.conn_setConn_self h there]
    exact told'

theorem balances_reply {text : Bytes} {next : Next} (there : i < s.conns.length)
    (told : SentAll (s.conn i)) (idle : Idle (s.conn i)) (plain : next ≠ .getOnWriteChunk) :
    Balances i (surplus s) (s.reply i text next) := by
  refine balances_idle there told idle rfl ?_
  rintro ⟨text', same⟩
  exact plain (Pending.write.inj same).2

theorem balances_closed (there : i < s.conns.length) (closed : h.popStream.queue = none) :
    Balances i (surplus s) (s.setConn i h) := by
  refine ⟨?_, ?_⟩
  · rw [Server.conn_setConn_self h there, owed_closed closed, surplus_setConn, add_zero]
  · rw [Server.conn_setConn_self h there]
    exact told_closed closed

theorem balances_kept {text : Bytes} (there : i < s.conns.length)
    (isOpen : (s.conn i).popStream.queue.isSome)
    (all : (s.conn i).popStream.header.end_ ≤ (s.conn i).popStream.chunkPos) :
    Balances i (surplus s) (s.reply i text .readRequest) := by
  have stage : ¬Serving ((s.reply i text .readRequest).conn i) := not_serving there
  rw [conn_reply there] at stage
  have kept : Kept { s.conn i with pending := .write text .readRequest } := ⟨isOpen, all, stage⟩
  refine ⟨?_, ?_⟩
  · rw [conn_reply there, owed_kept kept, add_zero]
    rfl
  · rw [conn_reply there]
    exact fun _ _ => all

theorem balances_serving {text : Bytes} (there : i < s.conns.length)
    (isOpen : (s.conn i).popStream.queue.isSome) :
    Balances i (surplus s + 1) (s.reply i text .getOnWriteChunk) := by
  have serving : Serving { s.conn i with pending := .write text .getOnWriteChunk } := ⟨text, rfl⟩
  refine ⟨?_, ?_⟩
  · have owes : owed { s.conn i with pending := .write text .getOnWriteChunk } = 1 :=
      owed_serving (h := { s.conn i with pending := _ }) isOpen serving
    rw [conn_reply there, owes]
    rfl
  · rw [conn_reply there]
    exact fun idle => absurd serving idle.1

theorem balances_failed {text : Bytes} (there : i < s.conns.length)
    (isOpen : (s.conn i).popStream.queue.isSome)
    (unread : (s.conn i).popStream.chunkPos < (s.conn i).popStream.header.end_) :
    Balances i (surplus s + 1) (s.reply i text .hangUp) := by
  have dying := dying_reply (s := s) there text
  refine ⟨?_, fun idle => absurd dying idle.2⟩
  have owes : owed { s.conn i with pending := .write text .hangUp } = 1 :=
    owed_unread (h := { s.conn i with pending := _ }) isOpen unread
  rw [conn_reply there, owes]
  rfl

theorem ends_balance {erase ok : Bool} {q : Queue} {header : Header} (ready : Ready i s)
    (held : Holds s i address id)
    (pop : (s.object address).popEnd erase id header ok = .ok q) (stream : IQStream) :
    surplus ((s.setObject address q).setConn i { s.conn i with popStream := stream }) =
      surplus s + if erase then 0 else 1 := by
  rw [surplus_setConn, surplus_popEnd ready held pop]

theorem balances_drop {ok : Bool} (ready : Ready i s) :
    Balances i (surplus s + if (s.conn i).popStream.queue.isSome then 1 else 0) (s.drop i ok) := by
  have there := ready.there
  have push := calm_dropPush ok there fun a isOpen => ready.made i a isOpen
  have ready' := ready.calm push
  have conn : (s.drop i ok).conn i = { pending := .closed } := conn_drop there
  refine ⟨?_, by rw [conn]; exact told_closed rfl⟩
  rw [conn, owed_closed rfl, add_zero]
  change surplus ((s.dropPush i ok).dropPop i) = _
  rw [← surplus_dropPush s i ok]
  unfold Server.dropPop
  split
  case h_1 closed =>
    rw [push.closed_iff.mp closed]
    simp
  case h_2 a isOpen =>
    have held : Holds (s.dropPush i ok) i a ((s.dropPush i ok).conn i).popStream.id := ⟨isOpen, rfl⟩
    have before := ((push.held a _).mp held).1
    have pop : ((s.dropPush i ok).object a).popEnd false
        ((s.dropPush i ok).conn i).popStream.id {} true =
          .ok (((s.dropPush i ok).conn i).popStream.destruct ((s.dropPush i ok).object a)) := by
      rw [IQStream.destruct_open (by rw [isOpen]; rfl), Queue.popEnd_return]
    rw [before]
    exact ends_balance ready' held pop {}

/-- A `get` that leaves no item behind and yet keeps it in the queue. -/
def peeking (req : Request) : Bool := req.getPeek && !req.getOpen

theorem balances_getFinish {text : Bytes} {dropOk : Bool} (ready : Ready i s)
    (held : Holds s i address id)
    (all : (s.conn i).popStream.header.end_ ≤ (s.conn i).popStream.chunkPos) :
    Balances i (surplus s + 1 + if peeking (s.conn i).req then 1 else 0)
      (s.getFinish i text true dropOk) := by
  have there := ready.there
  have isOpen : (s.countDequeued.conn i).popStream.queue.isSome := by
    rw [show s.countDequeued.conn i = s.conn i from rfl, held.1]
    rfl
  unfold Server.getFinish
  by_cases opens : (s.conn i).req.getOpen
  · rw [if_pos opens]
    refine (balances_kept (s := s.countDequeued) there isOpen all).mono ?_
    rw [surplus_countDequeued, if_neg (by simp [peeking, opens]), add_zero]
  · rw [if_neg opens]
    obtain ⟨t, close⟩ := popClose_clean s i (!(s.conn i).req.getPeek)
    rw [close]
    rcases Server.popClose_ok close with ⟨closed, -⟩ | ⟨a, q, isOpen, pop, same⟩
    · rw [held.1] at closed
      cases closed
    · have held' : Holds s i a (s.conn i).popStream.id := ⟨isOpen, rfl⟩
      have balance := ends_balance ready held' pop { (s.conn i).popStream with queue := none }
      rw [← same] at balance
      have there' : i < t.countDequeued.conns.length := by
        rw [same]
        exact lt_of_lt_of_eq there List.length_set.symm
      have closed : (t.countDequeued.conn i).popStream.queue = none := by
        rw [show t.countDequeued.conn i = t.conn i from rfl, same,
          Server.conn_setObject_setConn a q _ there]
      have peeks : peeking (s.conn i).req = (s.conn i).req.getPeek := by simp [peeking, opens]
      refine (balances_closed
        (h := { t.countDequeued.conn i with pending := .write text .readRequest }) there' closed).mono ?_
      rw [surplus_countDequeued, balance, peeks]
      cases (s.conn i).req.getPeek with
      | true => rfl
      | false => simp

def single (q : Queue) (id : ℕ) : Bool :=
  (q.contents.lookup ⟨.queue, id⟩).any fun value =>
    match Stored.ofValue value with
    | .item _ => true
    | _ => false

theorem read_first (address id : ℕ) {q : Queue} {io : Io} (clean : ∀ n, io n = true) (intact : Intact q.contents)
    (solid : Solid q.contents) :
    (∃ e stream, ({ queue := some address, id := id } : IQStream).read q io = (.error e, stream) ∧
      stream.chunkPos < stream.header.end_ ∧ single q id = false) ∨
    ∃ buf stream, ({ queue := some address, id := id } : IQStream).read q io = (.ok buf, stream) ∧
      if single q id then stream.tell = stream.size ∧ stream.header.end_ ≤ stream.chunkPos
      else stream.tell ≠ stream.size := by
  cases found : q.contents.lookup ⟨.queue, id⟩ with
  | none =>
    refine .inl ⟨.ioError, { queue := some address, id := id }, ?_, by simp, by simp [single, found]⟩
    simp [IQStream.read, IQStream.readEntry, Queue.popRead, Queue.get, found]
  | some value =>
    cases kind : Stored.ofValue value with
    | bad =>
      refine .inl ⟨.ioError, { queue := some address, id := id }, ?_, by simp,
        by simp [single, found, kind]⟩
      simp [IQStream.read, IQStream.readEntry, Queue.popRead, Queue.get, found, clean, kind]
    | item bytes =>
      have popRead := ItemCodec.popRead_item found kind {}
      refine .inr ⟨bytes, { queue := some address, id := id, header := { size := bytes.length },
                            chunkPos := 1, tell := bytes.length }, ?_, ?_⟩
      · simp [IQStream.read, IQStream.readEntry, clean, popRead, IQStream.readChunk]
      · simp [single, found, kind, IQStream.size]
    | header header =>
      have entry : HeaderAt q.contents id header := ⟨value, found, kind⟩
      have several := intact.several entry
      obtain ⟨chunk, there⟩ := mem_iff_lookup.mp
        ((intact.filled entry).present header.beg (le_refl _) (by omega))
      have multi : header.end_ > 1 := by omega
      have read : ({ queue := some address, id := id } : IQStream).read q io =
          (.ok chunk, { queue := some address, id := id, header := header,
                        chunkPos := header.beg + 1, tell := chunk.length }) := by
        simp [IQStream.read, IQStream.readEntry, Queue.popRead, Queue.get, found, clean, kind,
          multi, IQStream.readChunk, Queue.readChunk, there]
      refine .inr ⟨chunk, _, read, ?_⟩
      rw [if_neg (by simp [single, found, kind])]
      intro told
      -- the second chunk is still to come
      have progress := (progress_read io intact
        (.fresh rfl rfl rfl : Progress q.contents { queue := some address, id := id })).1
      rw [read] at progress
      have all := (progress.readAll intact solid (Nat.succ_ne_zero _) told).1
      simp only at all
      omega

theorem balances_getRead (clean : ∀ n, env.io n = true) (ready : Ready i s)
    (fresh : (s.conn i).popStream = { queue := some address, id := id }) :
    Balances i (surplus s + 1 +
      if peeking (s.conn i).req && single (s.object address) id then 1 else 0)
      (s.getRead i env) := by
  have there := ready.there
  have held : Holds s i address id := ⟨by rw [fresh], by rw [fresh]⟩
  have sound := ready.sound address
  have intact : Intact (s.object address).contents := sound.cons.layout.intact
  have first := read_first address id (fun n => clean (n + 1)) intact
    (solid_contents sound.solid)
  have queue := (s.conn i).popStream.queue_read (s.object address) fun n => env.io (n + 1)
  rw [← fresh] at first
  rcases first with ⟨e, stream, read, unread, long⟩ | ⟨buf, stream, read, told⟩
  · have popRead : s.popRead i (fun n => env.io (n + 1)) =
        (.error e, s.setConn i { s.conn i with popStream := stream }) := by
      rw [Server.popRead, held.1, Option.getD_some, read]
    have conn := Server.conn_setConn_self { s.conn i with popStream := stream } there
    rw [read, held.1] at queue
    rw [Server.getRead, popRead, long, Bool.and_false, if_neg Bool.false_ne_true, add_zero]
    refine balances_failed (s := s.setConn i _) (lt_of_lt_of_eq there List.length_set.symm) ?_ ?_
    · rw [conn, show stream.queue = some address from queue]
      rfl
    · rw [conn]
      exact unread
  · have popRead : s.popRead i (fun n => env.io (n + 1)) =
        (.ok buf, s.setConn i { s.conn i with popStream := stream }) :=
      popRead_read (by rw [held.1, Option.getD_some, read])
    obtain ⟨ready', held', req, -, -, -⟩ := popRead_begun ready held popRead
    have conn := Server.conn_setConn_self { s.conn i with popStream := stream } there
    rw [Server.getRead, popRead]
    simp only
    rw [conn] at req ⊢
    cases one : single (s.object address) id with
    | true =>
      rw [one, if_pos rfl] at told
      rw [if_pos told.1, clean 3, Bool.and_true]
      refine (balances_getFinish ready' held' ?_).mono ?_
      · rw [conn]
        exact told.2
      · rw [conn]
        rfl
    | false =>
      rw [one, if_neg Bool.false_ne_true] at told
      rw [if_neg told, Bool.and_false, if_neg Bool.false_ne_true, add_zero]
      exact balances_serving ready'.there (by rw [held'.1]; rfl)

theorem balances_getOnWriteChunk (clean : ∀ n, env.io n = true) (ready : Ready i s)
    (held : Holds s i address id) (begun : (s.conn i).popStream.chunkPos ≠ 0) :
    Balances i (surplus s + 1 +
      if peeking (s.conn i).req && (s.conn i).popStream.tell = (s.conn i).popStream.size then 1
      else 0) (s.getOnWriteChunk i env) := by
  unfold Server.getOnWriteChunk
  dsimp only
  by_cases told : (s.conn i).popStream.tell = (s.conn i).popStream.size
  · rw [if_pos told, clean 3, decide_eq_true told, Bool.and_true]
    exact balances_getFinish ready held (ready.readAll held begun told).1.ge
  · rw [if_neg told, decide_eq_false told, Bool.and_false, if_neg Bool.false_ne_true, add_zero]
    split
    case h_1 e t failed =>
      have calm := calm_popRead ready.there ready.popMade fun n => env.io (n + 1)
      rw [failed] at calm
      have held' := (calm.held address id).mpr held
      have same : surplus t = surplus s := by rw [← (Prod.mk.inj failed).2]; rfl
      refine (balances_drop (ready.calm calm)).mono ?_
      rw [held'.1, same]
      rfl
    case h_2 buf t read =>
      obtain ⟨ready', held', -, -, -, -⟩ := popRead_begun ready held read
      have same : surplus t = surplus s := by rw [← (Prod.mk.inj read).2]; rfl
      rw [← same]
      exact balances_serving ready'.there (by rw [held'.1]; rfl)

def peeks (s : Server) (h : Handler) : Bool :=
  peeking h.req && !h.req.getClose && !h.req.getAbort && h.popStream.queue.isNone &&
    (s.queues.lookup h.req.queue).any fun address =>
      (s.object address).popBegin.any fun popped => single (s.object address) popped.1

theorem popBegin_blank (image : Store Key Bytes) (path : Bytes) :
    (Queue.blank image path).popBegin = none :=
  Queue.popBegin_none.mpr ⟨rfl, rfl⟩

theorem peeks_queueAt (further : ((s.conn i).req.getClose && !(s.conn i).req.getOpen ||
      (s.conn i).req.getAbort) = false) (closed : (s.conn i).popStream.queue = none)
    (found : s.queueAt (s.conn i).req.queue = .ok (address, t)) :
    peeks s (s.conn i) = (peeking (s.conn i).req &&
      (t.object address).popBegin.any fun popped => single (t.object address) popped.1) := by
  obtain ⟨close, abort⟩ := Bool.or_eq_false_iff.mp further
  have flags : (peeking (s.conn i).req && !(s.conn i).req.getClose && !(s.conn i).req.getAbort &&
      (s.conn i).popStream.queue.isNone) = peeking (s.conn i).req := by
    rw [closed, abort]
    unfold peeking
    revert close
    cases (s.conn i).req.getClose <;> cases (s.conn i).req.getOpen <;> simp
  rw [peeks, flags]
  rcases Server.queueAt_ok found with ⟨lookup, rfl⟩ | ⟨lookup, rfl, rfl⟩
  · rw [lookup, Option.any_some]
  · rw [lookup, Server.object_withQueue_self, popBegin_blank]
    rfl

theorem balances_getPop (clean : ∀ n, env.io n = true) (ready : Ready i s)
    (closed : (s.conn i).popStream.queue = none) (run : s.getPop i env = .ok s') :
    Balances i (surplus s + if peeks s (s.conn i) then 1 else 0) s' := by
  have there := ready.there
  unfold Server.getPop at run
  dsimp only at run
  split at run
  case isTrue ends =>
    have blind : peeks s (s.conn i) = false := by
      rw [peeks, peeking]
      revert ends
      cases (s.conn i).req.getClose <;> cases (s.conn i).req.getOpen <;>
        cases (s.conn i).req.getAbort <;> simp
    rw [blind, if_neg Bool.false_ne_true, add_zero, ← Except.ok.inj run]
    exact balances_closed (h := { s.conn i with pending := _ }) there closed
  case isFalse further =>
    rw [Bool.not_eq_true] at further
    obtain ⟨⟨a, t⟩, found, run⟩ := bind_ok run
    obtain ⟨calm, conns, -, -⟩ := calm_queueAt i found
    have ready' := ready.calm calm
    have same : t.conn i = s.conn i := Server.conn_congr conns i
    have closed' : (t.conn i).popStream.queue = none := by rw [same]; exact closed
    rw [peeks_queueAt further closed found, ← surplus_queueAt found]
    dsimp only at run
    rcases t.popOpen_cases i a with ⟨isOpen, -⟩ | ⟨-, none, result⟩ | ⟨-, id, q, pop, result⟩
    · rw [closed'] at isOpen
      cases isOpen
    · rw [none, Option.any_none, Bool.and_false, if_neg Bool.false_ne_true, add_zero]
      rw [result] at run
      simp only at run
      split at run
      · rw [← Except.ok.inj run]
        have line := surplus_same t a
          (q := (t.object a).wait (s.conn i).req.waitMs i) ⟨rfl, rfl, rfl, rfl, fun _ => rfl⟩
        rw [← line]
        exact balances_closed (h := { t.conn i with pending := _ }) ready'.there closed'
      · rw [← Except.ok.inj run]
        exact balances_closed (h := { t.conn i with pending := _ }) ready'.there closed'
    · rw [pop, Option.any_some]
      rw [result] at run
      rw [← Except.ok.inj run]
      have did : Did i (.take a id) t ((t.setObject a q).setConn i
          { t.conn i with popStream := { queue := some a, id := id } }) :=
        ⟨ready'.there, closed', q, pop, rfl⟩
      have conn := Server.conn_setObject_setConn a q
        { t.conn i with popStream := { queue := some a, id := id } } ready'.there
      have object : ((t.setObject a q).setConn i
          { t.conn i with popStream := { queue := some a, id := id } }).object a = q :=
        Server.object_setObject_self q (popBegin_made pop)
      have entry : single q id = single (t.object a) id := by
        rw [single, Queue.contents_popBegin pop, single]
      refine (balances_getRead clean (ready'.did did) (by rw [conn])).mono ?_
      rw [surplus_setConn, surplus_popBegin ready' pop, conn, object, entry, same]
      ring

def aborts (h : Handler) : Bool :=
  h.popStream.queue.isSome && h.req.getAbort &&
    !(h.req.getOpen || h.req.getClose || h.req.getPeek)

theorem not_peeks (busy : h.req.getClose = true ∨ h.req.getAbort = true ∨
    h.popStream.queue.isSome = true ∨ (h.req.getPeek && h.req.getOpen) = true) :
    peeks s h = false := by
  unfold peeks peeking
  rcases busy with close | abort | isOpen | both
  · simp [close]
  · simp [abort]
  · obtain ⟨a, isOpen⟩ := Option.isSome_iff_exists.mp isOpen
    simp [isOpen]
  · rw [Bool.and_eq_true] at both
    simp [both.2]

theorem balances_get (clean : ∀ n, env.io n = true) (ready : Ready i s) (told : SentAll (s.conn i))
    (idle : Idle (s.conn i)) (run : s.get i env = .ok s') :
    Balances i (surplus s + if aborts (s.conn i) || peeks s (s.conn i) then 1 else 0) s' := by
  have there := ready.there
  unfold Server.get at run
  dsimp only at run
  split at run
  case isTrue alone =>
    rw [Bool.and_eq_true] at alone
    have keeps : aborts (s.conn i) = false := by simp only [aborts, alone.2, Bool.not_true, Bool.and_false]
    rw [keeps, not_peeks (.inr (.inl alone.1)), ← Except.ok.inj run]
    exact (balances_reply there told idle (by simp)).mono (by simp)
  case isFalse alone =>
  split at run
  case isTrue both =>
    have keeps : aborts (s.conn i) = false := by
      rw [Bool.and_eq_true] at both
      simp [aborts, both.2]
    rw [keeps, not_peeks (.inr (.inr (.inr both))), ← Except.ok.inj run]
    exact (balances_reply there told idle (by simp)).mono (by simp)
  case isFalse =>
  split at run
  case isTrue ends =>
    obtain ⟨t, close⟩ := popClose_clean s i (s.conn i).req.getClose
    rw [clean 0, close] at run
    simp only at run
    rcases Server.popClose_ok close with ⟨closed, rfl⟩ | ⟨a, q, isOpen, pop, same⟩
    · have keeps : aborts (t.conn i) = false := by simp [aborts, closed]
      rw [keeps, Bool.false_or]
      exact balances_getPop clean ready closed run
    · have held : Holds s i a (s.conn i).popStream.id := ⟨isOpen, rfl⟩
      have balance := ends_balance ready held pop { (s.conn i).popStream with queue := none }
      have done : PopEnds i a (s.conn i).popStream.id (s.conn i).req.getClose s t :=
        ⟨there, holds_made held (ready.sound a), held, q, _, _, pop, rfl, same⟩
      rw [← same] at balance
      have conn : t.conn i = { s.conn i with
          popStream := { (s.conn i).popStream with queue := none } } := by
        rw [same, Server.conn_setObject_setConn a q _ there]
      have ready' : Ready i t := by
        cases flag : (s.conn i).req.getClose with
        | true =>
          rw [flag] at done
          have did : Did i (.remove a (s.conn i).popStream.id) s t := done
          exact ready.did did
        | false =>
          rw [flag] at done
          have did : Did i (.giveBack a (s.conn i).popStream.id) s t := done
          exact ready.did did
      have blind : peeks t (t.conn i) = false := by
        rw [conn]
        rw [Bool.or_eq_true] at ends
        exact not_peeks (ends.symm.imp id .inl)
      have gives : aborts (s.conn i) = !(s.conn i).req.getClose := by
        rw [aborts, isOpen]
        revert ends alone
        cases (s.conn i).req.getClose <;> cases (s.conn i).req.getAbort <;> simp
      refine (balances_getPop clean ready' (by rw [conn]) run).mono ?_
      rw [balance, blind, gives, not_peeks (.inr (.inr (.inl (by rw [isOpen]; rfl))))]
      cases (s.conn i).req.getClose <;> simp
  case isFalse further =>
    rw [Bool.or_eq_true, not_or, Bool.not_eq_true, Bool.not_eq_true] at further
    have keeps : aborts (s.conn i) = false := by simp [aborts, further.1]
    split at run
    case isTrue isOpen =>
      rw [keeps, not_peeks (.inr (.inr (.inl isOpen))), ← Except.ok.inj run]
      exact (balances_reply there told idle (by simp)).mono (by simp)
    case isFalse closed =>
      rw [keeps, Bool.false_or]
      exact balances_getPop clean ready (by simpa using closed) run

theorem sameItems_oopen (stream : OQStream) (address : ℕ) (q : Queue) (count : ℕ) (sync : Bool) :
    Queue.SameItems q (stream.open_ address q count sync).2.2 := by
  rcases stream.open_queue address q count sync with same | reserved
  · rw [same]
    exact .refl q
  · rw [reserved]
    exact Queue.sameItems_reserveChunks q count

theorem balances_set (there : i < s.conns.length) (told : SentAll (s.conn i))
    (idle : Idle (s.conn i)) (run : s.set i = .ok s') : Balances i (surplus s) s' := by
  obtain ⟨a, t, u, found, opened, rfl⟩ := Server.set_ok run
  obtain ⟨-, conns, -, -⟩ := calm_queueAt i found
  have there' : i < t.conns.length := conns ▸ there
  have same : t.conn i = s.conn i := Server.conn_congr conns i
  obtain ⟨-, after⟩ := pushOpen_ok opened
  have there'' : i < u.conns.length := by
    rw [after]
    exact lt_of_lt_of_eq there' List.length_set.symm
  have conn : ∃ stream, u.conn i = { s.conn i with pushStream := stream } := by
    rw [after, Server.conn_setObject_setConn a _ _ there', same]
    exact ⟨_, rfl⟩
  have balance : surplus u = surplus s := by
    rw [after, surplus_setConn, surplus_same _ _ (sameItems_oopen _ _ _ _ _), surplus_queueAt found]
  obtain ⟨stream, conn⟩ := conn
  rw [← balance]
  refine balances_idle there'' ?_ ?_ rfl ?_
  · rw [conn]
    exact told
  · rw [conn]
    exact idle
  · rintro ⟨text, wrong⟩
    cases wrong

theorem count_published {stream : OQStream} {q : Queue} (chunk : Bytes) (stray : UInt8)
    (le : q.queueTail.id ≤ q.queueHead.id) :
    (published stream q chunk stray).count = q.count + 1 := by
  unfold published
  split
  · exact Queue.count_pushed _ _ le
  · have kept : (withChunk q stream.chunkPos chunk).queueTail.id ≤
        (withChunk q stream.chunkPos chunk).queueHead.id := le
    exact Queue.count_pushed _ _ kept

theorem stats_storeChunk {chunk : Bytes} (there : i < s.conns.length) :
    ((∃ text, ((s.storeChunk i chunk env).conn i).pending = .write text .readRequest) ∧
      (s.storeChunk i chunk env).stats =
        { s.stats with itemsEnqueued := s.stats.itemsEnqueued + 1 }) ∨
    (∀ text, ((s.storeChunk i chunk env).conn i).pending ≠ .write text .readRequest) ∧
      (s.storeChunk i chunk env).stats = s.stats := by
  have keeps : KeepsMap i s (s.pushWrite i chunk env.stray env.io).2 := keeps_pushWrite there
  have stats : (s.pushWrite i chunk env.stray env.io).2.stats = s.stats := by
    unfold Server.pushWrite
    split <;> rfl
  unfold Server.storeChunk
  split
  case h_1 e t failed =>
    rw [failed] at keeps stats
    have there' : i < t.conns.length := keeps.conns ▸ there
    refine .inr ⟨fun text => ?_, stats⟩
    rw [Server.serverError, conn_reply there']
    simp
  case h_2 t done =>
    rw [done] at keeps stats
    have there' : i < t.conns.length := keeps.conns ▸ there
    split
    · refine .inl ⟨⟨ascii "STORED\r\n", ?_⟩, ?_⟩
      · exact congrArg Handler.pending (conn_reply
          (s := { t with stats := { t.stats with itemsEnqueued := t.stats.itemsEnqueued + 1 } }) there')
      · rw [← stats]
        rfl
    · refine .inr ⟨fun text => ?_, stats⟩
      rw [conn_readNextChunk there']
      simp

theorem balances_push {q : Queue} {k : ℕ} (made : address < s.objects.length)
    (told : SentAll (s.conn i)) (idle : Idle (s.conn i))
    (pop : (s'.conn i).popStream = (s.conn i).popStream) (stage : ¬Serving (s'.conn i))
    (objects : s'.objects = s.objects.set address q) (count : q.count = (s.object address).count + k)
    (stats : s'.stats = { s.stats with itemsEnqueued := s.stats.itemsEnqueued + k }) :
    Balances i (surplus s) s' := by
  have sum : total s' = total (s.setObject address q) := by
    rw [total, objects]
    rfl
  have set := surplus_setObject q made
  refine ⟨?_, fun _ isOpen => ?_⟩
  · rw [owed_same pop (iff_of_false stage idle.1), owed_idle told idle, add_zero, surplus, sum, stats]
    rw [count] at set
    simp only [surplus] at set ⊢
    push_cast at set ⊢
    have kept : (s.setObject address q).stats = s.stats := rfl
    rw [kept] at set
    omega
  · rw [pop] at isOpen ⊢
    exact told idle isOpen

theorem balances_setOnReadChunk {n : ℕ} (clean : ∀ n, env.io n = true) (ready : Ready i s)
    (told : SentAll (s.conn i)) (idle : Idle (s.conn i)) (receiving : Receiving s.chunkSize (s.conn i) n)
    (enough : n = 0 ∨ s.capacity ≤ (s.conn i).inBuf.length) :
    Balances i (surplus s) (s.setOnReadChunk i env) := by
  have there := ready.there
  obtain ⟨a, isOpen⟩ := Option.isSome_iff_exists.mp receiving.isOpen
  have made := ready.made i a isOpen
  have own := (ready.sound a).cons.own
  have handled := setOnReadChunk_handled there isOpen made clean receiving enough
  have stats : s.setOnReadChunk i env = s.error i "bad data chunk" "CLIENT_ERROR" ∨
      ((∃ text, ((s.setOnReadChunk i env).conn i).pending = .write text .readRequest) ∧
        (s.setOnReadChunk i env).stats =
          { s.stats with itemsEnqueued := s.stats.itemsEnqueued + 1 }) ∨
      (∀ text, ((s.setOnReadChunk i env).conn i).pending ≠ .write text .readRequest) ∧
        (s.setOnReadChunk i env).stats = s.stats := by
    rw [setOnReadChunk_passed]
    split
    · exact .inl rfl
    · exact .inr (stats_storeChunk (s := s.setConn i _) (lt_of_lt_of_eq there List.length_set.symm))
  cases handled with
  | refused last ending after =>
    rw [after]
    exact balances_reply there told idle (by simp)
  | more large room conn reading objects =>
    obtain ⟨m, reading⟩ := reading
    refine balances_push (k := 0) made told idle (by rw [conn]) ?_ objects rfl ?_
    · rintro ⟨text, wrong⟩
      cases reading.symm.trans wrong
    · rcases stats with refused | ⟨⟨text, wrong⟩, -⟩ | ⟨-, same⟩
      · rw [refused, Server.error, conn_reply there] at reading
        cases reading
      · cases reading.symm.trans wrong
      · exact same
  | stored last room ending conn objects =>
    refine balances_push (k := 1) made told idle (by rw [conn]) ?_ objects
      (count_published _ _ own.tail_le_head) ?_
    · rw [conn]
      rintro ⟨text, wrong⟩
      cases wrong
    · rcases stats with refused | ⟨-, same⟩ | ⟨wrong, -⟩
      · have pending := congrArg Handler.pending conn
        rw [refused, Server.error, conn_reply there] at pending
        cases pending
      · exact same
      · exact absurd (congrArg Handler.pending conn) (wrong _)

end Darner.ItemBooks
