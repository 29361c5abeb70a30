import Darner.BrokerGets
import Darner.RequestLanguage

/-! How the other requests answer, the body of a `set` with them. A `set` keeps to the rule
of the broker piece by piece: the chunks that its push has written are the part of the item
that the broker has got, and the last piece puts the item at the end of its lane. -/

namespace Darner.BrokerSets
open OrderedStore LabelledRuns StreamMoves QueuePartition QueueRecovery ChunkLayout ReadProgress
open ChunkedItems SetProgress SetBodies HoldingQueues ServerMoves FetchDeeds FetchEvents
open ReliableFetch ServerCalls GetReplies ItemCodec
open Broker
open ItemValues BrokerStock BrokerGets

variable {s t s' : Server} {stock : Stock ℕ ℕ Bytes} {i address id : ℕ} {q q' : Queue}
  {stream : OQStream} {chunk : Bytes} {stray : UInt8} {io : Io}

inductive Wrote (stream : OQStream) (q : Queue) (chunk : Bytes) (stray : UInt8) :
    Except Error Unit × OQStream × Queue → Prop where
  | failed (e : Error) (stream' : OQStream) {q' : Queue} (head : q'.queueHead = q.queueHead) :
      Wrote stream q chunk stray (.error e, stream', q')
  | more (more : stream.chunkPos + 1 < stream.header.end_) :
      Wrote stream q chunk stray
        (.ok (), stream.advance chunk.length, withChunk q stream.chunkPos chunk)
  | all (last : stream.chunkPos + 1 = stream.header.end_) :
      Wrote stream q chunk stray (.ok (),
        { stream.advance chunk.length with id := q.queueHead.id, queue := none },
        published stream q chunk stray)

theorem write_wrote (isOpen : stream.queue.isSome) (left : stream.chunkPos < stream.header.end_) :
    Wrote stream q chunk stray (stream.write q chunk stray io) := by
  rcases stream.write_cases q chunk stray io with
    ⟨stuck, -⟩ | ⟨-, -, ⟨e, -, h⟩ | ⟨stream', q', store, h⟩⟩
  · rcases stuck with closed | finished
    · rw [closed] at isOpen
      cases isOpen
    · omega
  · rw [h]
    exact .failed e stream rfl
  · rw [h]
    rcases OQStream.store_ok store with ⟨single, id, push, rfl⟩ | ⟨multi, put, rfl⟩
    · obtain ⟨rfl, rfl⟩ := Queue.pushValue_ok push
      have last : stream.chunkPos + 1 = stream.header.end_ := by omega
      rcases (({ stream with id := q.queueHead.id } : OQStream).advance chunk.length).finish_cases
          (q.pushed (escape chunk stray) stream.sync).wakeUp (io 1) with
        ⟨unfinished, -⟩ | ⟨-, -, done⟩ | ⟨-, multi, -⟩
      · exact absurd last unfinished
      · have wrote : Wrote stream q chunk stray _ := .all last
        rw [published, if_pos single] at wrote
        exact done ▸ wrote
      · exact absurd multi (Nat.not_lt.mpr single)
    · obtain rfl : q' = withChunk q stream'.chunkPos chunk := Queue.put_ok put
      rcases (stream'.advance chunk.length).finish_cases (withChunk q stream'.chunkPos chunk)
          (io 1) with
        ⟨unfinished, done⟩ | ⟨-, single, -⟩ | ⟨last, -, ⟨e, done⟩ | ⟨id, q'', push, done⟩⟩
      · rw [done]
        exact .more (lt_of_le_of_ne left unfinished)
      · exact absurd multi (Nat.not_lt.mpr single)
      · rw [done]
        exact .failed e _ rfl
      · obtain ⟨rfl, rfl⟩ := Queue.pushValue_ok push
        have wrote : Wrote stream' q chunk stray _ := .all last
        rw [published, if_neg (Nat.not_le.mpr multi)] at wrote
        exact done ▸ wrote

theorem restores (body : Bytes) (stray : UInt8) :
    ∃ value, Stored.ofValue (escape body stray) = .item value ∧ Restores body value := by
  by_cases empty : body = []
  · subst empty
    by_cases zero : stray = 0
    · subst zero
      exact ⟨[0], rfl, .empty⟩
    · refine ⟨[], ?_, .same []⟩
      rw [escape, if_neg (by simpa [lastByte] using zero)]
      rfl
  · refine ⟨_, ofValue_escape_eq empty stray, ?_⟩
    split
    case isTrue zero =>
      subst zero
      exact .zero
    case isFalse => exact .same body

theorem gathered_more (start : stream.header.beg ≤ stream.chunkPos)
    (multi : stream.header.end_ > 1) :
    gathered (withChunk q stream.chunkPos chunk).contents (stream.advance chunk.length) =
      gathered q.contents stream ++ chunk := by
  have last : chunkAt (withChunk q stream.chunkPos chunk).contents stream.chunkPos = chunk := by
    rw [chunkAt, contents_withChunk, lookup_insert_eq, if_pos rfl, Option.getD_some]
  have old : chunksOf (withChunk q stream.chunkPos chunk).contents stream.header.beg
      stream.chunkPos = chunksOf q.contents stream.header.beg stream.chunkPos := by
    refine chunksOf_congr fun n _ below => ?_
    rw [contents_withChunk, lookup_insert_eq, if_neg]
    simp only [Key.mk.injEq, true_and]
    omega
  rw [gathered, if_pos (by exact multi), gathered, if_pos multi]
  calc chunksOf (withChunk q stream.chunkPos chunk).contents stream.header.beg (stream.chunkPos + 1)
      = chunksOf (withChunk q stream.chunkPos chunk).contents stream.header.beg stream.chunkPos ++
          chunksOf (withChunk q stream.chunkPos chunk).contents stream.chunkPos
            (stream.chunkPos + 1) :=
        chunksOf_append _ start (Nat.le_succ _)
    _ = chunksOf q.contents stream.header.beg stream.chunkPos ++ chunk := by
        rw [old, chunksOf_one, last]

theorem length_gathered {size : ℕ} {chunkSize : ℕ} (filling : Filling chunkSize size stream)
    (filled : stream.header.end_ > 1 →
      Filled q.contents stream.header.beg stream.chunkPos stream.header.size) :
    (gathered q.contents stream).length = stream.tell := by
  unfold gathered
  split
  case isTrue multi => rw [length_chunksOf, (filled multi).sum, OQStream.tell]
  case isFalse single =>
    have stop := filling.stop
    have start := filling.start
    rw [filling.told, List.length_nil, show stream.chunkPos - stream.header.beg = 0 by omega,
      Nat.zero_mul]

theorem head_published (stream : OQStream) (q : Queue) (chunk : Bytes) (stray : UInt8) :
    (published stream q chunk stray).queueHead.id = q.queueHead.id + 1 := by
  unfold published
  split
  · rw [(Queue.sameItems_wakeUp _).head]
    rfl
  · rw [(Queue.sameItems_wakeUp _).head]
    rfl

theorem item_published (fresh : ChunkStore.Fresh q) (start : stream.header.beg ≤ stream.chunkPos)
    (last : stream.chunkPos + 1 = stream.header.end_)
    (fits : stream.header.end_ > 1 → (stream.advance chunk.length).header.Fits) :
    ∃ value, Restores (gathered q.contents stream ++ chunk) value ∧
      itemAt (published stream q chunk stray).contents q.queueHead.id = some value := by
  rw [contents_published stream chunk stray fresh]
  split
  case isTrue single =>
    obtain ⟨value, item, same⟩ := restores chunk stray
    refine ⟨value, ?_, ?_⟩
    · rwa [gathered, if_neg (Nat.not_lt.mpr single), List.nil_append]
    · refine itemAt_item ?_ item
      rw [lookup_insert_eq, if_pos rfl]
  case isFalse multi =>
    rw [Nat.not_le] at multi
    refine ⟨gathered q.contents stream ++ chunk, .same _, ?_⟩
    have old : ∀ n, ((q.contents.insert ⟨.chunk, stream.chunkPos⟩ chunk).insert
        ⟨.queue, q.queueHead.id⟩ (stream.advance chunk.length).header.str).lookup ⟨.chunk, n⟩ =
        (withChunk q stream.chunkPos chunk).contents.lookup ⟨.chunk, n⟩ := by
      intro n
      rw [Layout.lookup_chunk_insert_queue, contents_withChunk]
    have header : HeaderAt ((q.contents.insert ⟨.chunk, stream.chunkPos⟩ chunk).insert
        ⟨.queue, q.queueHead.id⟩ (stream.advance chunk.length).header.str) q.queueHead.id
        (stream.advance chunk.length).header :=
      ⟨_, by rw [lookup_insert_eq, if_pos rfl], Stored.ofValue_str (fits multi)⟩
    rw [itemAt_header header, ← gathered_more start multi, gathered, if_pos (by exact multi)]
    rw [chunksOf_congr fun n _ _ => old n]
    exact congrArg (fun stop => some (chunksOf _ _ stop)) last.symm

/-- What becomes of a chunk that came out of the buffer. -/
inductive Put (i address : ℕ) (chunk : Bytes) (stray : UInt8) (t s' : Server) : Prop where
  | failed (e : Error) {q' : Queue} (pending : (s'.conn i).pending = .write (failure e) .hangUp)
      (objects : s'.objects = t.objects.set address q')
      (head : q'.queueHead = (t.object address).queueHead)
  | more {n : ℕ} (more : (t.conn i).pushStream.chunkPos + 1 < (t.conn i).pushStream.header.end_)
      (conn : s'.conn i = { t.conn i with
        pushStream := (t.conn i).pushStream.advance chunk.length, pending := .readChunk n })
      (objects : s'.objects = t.objects.set address
        (withChunk (t.object address) (t.conn i).pushStream.chunkPos chunk))
  | stored (last : (t.conn i).pushStream.chunkPos + 1 = (t.conn i).pushStream.header.end_)
      (pending : (s'.conn i).pending = .write (ascii "STORED\r\n") .readRequest)
      (objects : s'.objects = t.objects.set address
        (published (t.conn i).pushStream (t.object address) chunk stray))

theorem storeChunk_put {env : Env} (there : i < t.conns.length)
    (isOpen : (t.conn i).pushStream.queue = some address)
    (left : (t.conn i).pushStream.chunkPos < (t.conn i).pushStream.header.end_)
    (ends : (t.conn i).pushStream.tell + chunk.length = (t.conn i).req.numBytes ↔
      (t.conn i).pushStream.chunkPos + 1 = (t.conn i).pushStream.header.end_) :
    Put i address chunk env.stray t (t.storeChunk i chunk env) := by
  unfold Server.storeChunk
  rw [pushWrite_eq isOpen]
  have wrote : Wrote (t.conn i).pushStream (t.object address) chunk env.stray
      ((t.conn i).pushStream.write (t.object address) chunk env.stray env.io) :=
    write_wrote (by rw [isOpen]; rfl) left
  generalize (t.conn i).pushStream.write (t.object address) chunk env.stray env.io = result at wrote
  cases wrote with
  | failed e stream' head =>
    refine .failed e (congrArg Handler.pending (conn_reply ?_)) rfl head
    exact lt_of_lt_of_eq there List.length_set.symm
  | more more =>
    have conn := Server.conn_setObject_setConn (s := t) address
      (withChunk (t.object address) (t.conn i).pushStream.chunkPos chunk)
      { t.conn i with pushStream := (t.conn i).pushStream.advance chunk.length } there
    dsimp only
    rw [if_neg]
    · have there' : i < ((t.setObject address
          (withChunk (t.object address) (t.conn i).pushStream.chunkPos chunk)).setConn i
          { t.conn i with
            pushStream := (t.conn i).pushStream.advance chunk.length }).conns.length :=
        lt_of_lt_of_eq there List.length_set.symm
      have reading := conn_readNextChunk there'
      rw [conn] at reading
      exact .more more reading rfl
    · rw [conn]
      exact fun told => absurd (ends.mp told) (Nat.ne_of_lt more)
  | all last =>
    have conn := Server.conn_setObject_setConn (s := t) address
      (published (t.conn i).pushStream (t.object address) chunk env.stray)
      { t.conn i with pushStream := { (t.conn i).pushStream.advance chunk.length with
        id := (t.object address).queueHead.id, queue := none } } there
    dsimp only
    rw [if_pos]
    · refine .stored last (congrArg Handler.pending (conn_reply ?_)) rfl
      exact lt_of_lt_of_eq there List.length_set.symm
    · rw [conn]
      exact ends.mpr last

/-- A chunk is taken out of the buffer, of which `rest` is left, and written to the stream. -/
theorem consumed_put (rest : Bytes) (env : Env) (there : i < s.conns.length)
    (isOpen : (s.conn i).pushStream.queue = some address)
    (left : (s.conn i).pushStream.chunkPos < (s.conn i).pushStream.header.end_)
    (ends : (s.conn i).pushStream.tell + chunk.length = (s.conn i).req.numBytes ↔
      (s.conn i).pushStream.chunkPos + 1 = (s.conn i).pushStream.header.end_) :
    ∃ t, s.setConn i { s.conn i with inBuf := rest } = t ∧
      t.conn i = { s.conn i with inBuf := rest } ∧ t.objects = s.objects ∧
      Put i address chunk env.stray t (t.storeChunk i chunk env) := by
  obtain ⟨t, same, there', conn, objects, -⟩ := consumed rest there
  refine ⟨t, same, conn, objects, storeChunk_put there' ?_ ?_ ?_⟩
  · rw [conn]
    exact isOpen
  · rw [conn]
    exact left
  · rw [conn]
    exact ends

/-- What connection `i` has done to the stock and told its client, and where it stands. -/
structure Tells (i : ℕ) (s' : Server) (stock : Stock ℕ ℕ Bytes) (deals : List Deal) (said : Bytes)
    (phase : Broker.Phase) : Prop where
  stocked : ∃ stock', Runs Stock.Does stock deals stock' ∧ Stocked s' stock'
  text : sent (s'.conn i) = said
  stands : Stands s' i phase

/-- The chunk is refused by the journal, kept for the item, or completes it. -/
inductive Takes (i address : ℕ) (req : Request) (got chunk : Bytes) (stream : OQStream)
    (s' : Server) (stock : Stock ℕ ℕ Bytes) : Prop where
  | failed (e : Error) (tells : Tells i s' stock [] (failure e) .leaving)
  | more (more : stream.chunkPos + 1 < stream.header.end_)
      (tells : Tells i s' stock [] [] (.storing address req (got ++ chunk)))
  | stored {value : Bytes} (last : stream.chunkPos + 1 = stream.header.end_)
      (restores : Restores (got ++ chunk) value)
      (tells : Tells i s' stock [.push address value] (ascii "STORED\r\n") .asking)

theorem item_stored (stray : UInt8) (steady : ChunkStore.Steady s) (there : i < s.conns.length)
    (isOpen : (s.conn i).pushStream.queue = some address)
    (start : (s.conn i).pushStream.header.beg ≤ (s.conn i).pushStream.chunkPos)
    (last : (s.conn i).pushStream.chunkPos + 1 = (s.conn i).pushStream.header.end_)
    (room : (s.conn i).pushStream.tell + chunk.length ≤ (s.conn i).req.numBytes) :
    ∃ value, Restores (gathered (s.object address).contents (s.conn i).pushStream ++ chunk) value ∧
      itemAt (published (s.conn i).pushStream (s.object address) chunk stray).contents
        (s.object address).queueHead.id = some value := by
  have layout := (steady.sound address).cons.layout
  have own := (steady.sound address).cons.own
  have fresh : ChunkStore.Fresh (s.object address) :=
    ⟨own.head_type, fun mem => absurd (stored_lt_head own mem) (Nat.lt_irrefl _)⟩
  refine item_published fresh start last fun multi => ?_
  have own := layout.unfinished _ (ChunkStore.mem_writers there isOpen) multi
  have := own.several
  have := own.reserved
  have := layout.small
  have size := (steady.proper i).size
  have word : 2 ^ 32 < wordSize := by decide
  have total : (s.conn i).pushStream.header.size + chunk.length ≤ (s.conn i).req.numBytes := room
  refine ⟨by exact (by omega : (s.conn i).pushStream.header.beg < wordSize),
    by exact (by omega : (s.conn i).pushStream.header.end_ < wordSize), ?_⟩
  exact (by omega : (s.conn i).pushStream.header.size + chunk.length < wordSize)

theorem put_takes {rest : Bytes} (steady : ChunkStore.Steady s) (there : i < s.conns.length)
    (stocked : Stocked s stock) (isOpen : (s.conn i).pushStream.queue = some address)
    (start : (s.conn i).pushStream.header.beg ≤ (s.conn i).pushStream.chunkPos)
    (room : (s.conn i).pushStream.tell + chunk.length ≤ (s.conn i).req.numBytes)
    (conn : t.conn i = { s.conn i with inBuf := rest }) (objects : t.objects = s.objects)
    (put : Put i address chunk stray t s') (calm : Calm i s s') :
    Takes i address (s.conn i).req
      (gathered (s.object address).contents (s.conn i).pushStream) chunk (s.conn i).pushStream s'
      stock := by
  have ready := steady.ready there
  have made : address < s.objects.length := steady.sited.held i address (.inr isOpen)
  have stream : (t.conn i).pushStream = (s.conn i).pushStream := by rw [conn]
  have object : t.object address = s.object address := by rw [Server.object, objects, Server.object]
  cases put with
  | @failed e q' pending stored head =>
    rw [objects] at stored
    have after := object_of_objects made stored
    refine .failed e ⟨⟨stock, .nil _, stocked_calm ready.sound stocked calm fun a => ?_⟩, ?_, ?_⟩
    · rw [after]
      split
      case isTrue same => rw [head, object, same]
      case isFalse => rfl
    · rw [sent, pending]
    · exact .leaving pending
  | @more n more answer stored =>
    rw [objects, object, stream] at stored
    rw [stream, conn] at answer
    rw [stream] at more
    have after := object_of_objects made stored
    have pending := congrArg Handler.pending answer
    refine .more more ⟨⟨stock, .nil _, stocked_calm ready.sound stocked calm fun a => ?_⟩, ?_, ?_⟩
    · rw [after]
      split
      case isTrue same =>
        rw [same]
        rfl
      case isFalse => rfl
    · rw [sent, pending]
    · have open' : (s'.conn i).pushStream.queue = some address := by
        rw [answer]
        exact isOpen
      have stands : Stands s' i _ := .storing pending open'
      rw [after, if_pos rfl, answer] at stands
      have multi : (s.conn i).pushStream.header.end_ > 1 := by omega
      rw [← gathered_more start multi]
      exact stands
  | stored last pending stored =>
    rw [objects, object, stream] at stored
    rw [stream] at last
    have after := object_of_objects made stored
    obtain ⟨value, restores, item⟩ := item_stored _ steady there isOpen start last room
    refine .stored last restores ⟨⟨_, .cons (.push address value) (.nil _), ?_⟩, ?_, ?_⟩
    · refine stocked_push ready.sound stocked calm ?_ ?_ ?_
      · rw [after, if_pos rfl, head_published]
      · intro a other
        rw [after, if_neg other]
      · rw [after, if_pos rfl]
        exact item
    · rw [sent, pending]
    · exact .answered pending

theorem consumed_takes {rest : Bytes} (env : Env) {n : ℕ} (steady : ChunkStore.Steady s)
    (stocked : Stocked s stock) (reading : (s.conn i).pending = .readChunk n)
    (isOpen : (s.conn i).pushStream.queue = some address)
    (room : (s.conn i).pushStream.tell + chunk.length ≤ (s.conn i).req.numBytes)
    (ends : (s.conn i).pushStream.tell + chunk.length = (s.conn i).req.numBytes ↔
      (s.conn i).pushStream.chunkPos + 1 = (s.conn i).pushStream.header.end_)
    (calm : Calm i s ((s.setConn i { s.conn i with inBuf := rest }).storeChunk i chunk env)) :
    Takes i address (s.conn i).req
      (gathered (s.object address).contents (s.conn i).pushStream) chunk (s.conn i).pushStream
      ((s.setConn i { s.conn i with inBuf := rest }).storeChunk i chunk env) stock := by
  have there : i < s.conns.length := Server.conn_there (by simp [reading])
  have filling := (steady.receives.reading i n reading).filling
  obtain ⟨t, same, conn, objects, put⟩ := consumed_put rest env there isOpen filling.stop ends
  rw [same] at calm ⊢
  exact put_takes steady there stocked isOpen filling.start room conn objects put calm

theorem length_received {n : ℕ} (steady : ChunkStore.Steady s)
    (reading : (s.conn i).pending = .readChunk n)
    (isOpen : (s.conn i).pushStream.queue = some address) :
    (gathered (s.object address).contents (s.conn i).pushStream).length =
      (s.conn i).pushStream.tell := by
  have there : i < s.conns.length := Server.conn_there (by simp [reading])
  refine length_gathered (steady.receives.reading i n reading).filling fun multi => ?_
  have layout := (steady.sound address).cons.layout
  exact (layout.unfinished _ (ChunkStore.mem_writers there isOpen) multi).filled

theorem lastChunk_tells (env : Env) {n : ℕ} (steady : ChunkStore.Steady s)
    (stocked : Stocked s stock) (reading : (s.conn i).pending = .readChunk n)
    (isOpen : (s.conn i).pushStream.queue = some address)
    (rest : (s.conn i).req.numBytes - (s.conn i).pushStream.tell ≤ s.chunkSize)
    (buffered : (s.conn i).req.numBytes - (s.conn i).pushStream.tell + 2 ≤
      (s.conn i).inBuf.length)
    (calm : Calm i s (s.setOnReadChunk i env)) :
    ∃ deals said phase, Broker.Receives address (s.conn i).req
        (gathered (s.object address).contents (s.conn i).pushStream)
        ((s.conn i).inBuf.take ((s.conn i).req.numBytes - (s.conn i).pushStream.tell + 2))
        deals said phase ∧
      Tells i (s.setOnReadChunk i env) stock deals said phase := by
  have there : i < s.conns.length := Server.conn_there (by simp [reading])
  have filling := (steady.receives.reading i n reading).filling
  have told := filling.told_le
  rw [List.take_add]
  have full : ((s.conn i).inBuf.take
      ((s.conn i).req.numBytes - (s.conn i).pushStream.tell)).length =
      (s.conn i).req.numBytes - (s.conn i).pushStream.tell := by
    rw [List.length_take]
    omega
  have all : (gathered (s.object address).contents (s.conn i).pushStream ++
      (s.conn i).inBuf.take ((s.conn i).req.numBytes - (s.conn i).pushStream.tell)).length =
      (s.conn i).req.numBytes := by
    rw [List.length_append, length_received steady reading isOpen, full]
    omega
  unfold Server.setOnReadChunk at calm ⊢
  dsimp only at calm ⊢
  rw [if_pos rest] at calm ⊢
  split
  case isTrue open_ =>
    refine ⟨[], _, _, .refused rfl all open_, ⟨stock, .nil _, ?_⟩, sent_reply there _ _, ?_⟩
    · exact stocked_calm (steady.ready there).sound stocked (calm_reply there _ _) fun _ => rfl
    · exact .leaving (congrArg Handler.pending (conn_reply there))
  case isFalse ending =>
    rw [if_neg ending] at calm
    have last := filling.last rest
    have ends : (s.conn i).pushStream.tell + ((s.conn i).inBuf.take
        ((s.conn i).req.numBytes - (s.conn i).pushStream.tell)).length = (s.conn i).req.numBytes ↔
        (s.conn i).pushStream.chunkPos + 1 = (s.conn i).pushStream.header.end_ :=
      iff_of_true (by omega) last
    cases consumed_takes env steady stocked reading isOpen (by omega) ends calm with
    | failed e tells => exact ⟨_, _, _, .failed e, tells⟩
    | more more => exact absurd last (Nat.ne_of_lt more)
    | stored _ restores tells =>
      exact ⟨_, _, _, .stored (congrArg _ (not_not.mp ending)) all restores, tells⟩

theorem nextChunk_tells (env : Env) {n : ℕ} (steady : ChunkStore.Steady s)
    (stocked : Stocked s stock) (reading : (s.conn i).pending = .readChunk n)
    (isOpen : (s.conn i).pushStream.queue = some address)
    (rest : s.chunkSize < (s.conn i).req.numBytes - (s.conn i).pushStream.tell)
    (buffered : s.chunkSize ≤ (s.conn i).inBuf.length) (calm : Calm i s (s.setOnReadChunk i env)) :
    ∃ deals said phase, Broker.Receives address (s.conn i).req
        (gathered (s.object address).contents (s.conn i).pushStream)
        ((s.conn i).inBuf.take s.chunkSize) deals said phase ∧
      Tells i (s.setOnReadChunk i env) stock deals said phase := by
  have filling := (steady.receives.reading i n reading).filling
  have more := filling.more rest
  have full : ((s.conn i).inBuf.take s.chunkSize).length = s.chunkSize := by
    rw [List.length_take]
    omega
  unfold Server.setOnReadChunk at calm ⊢
  dsimp only at calm ⊢
  rw [if_neg (Nat.not_le.mpr rest)] at calm ⊢
  have ends : (s.conn i).pushStream.tell + ((s.conn i).inBuf.take s.chunkSize).length =
      (s.conn i).req.numBytes ↔
      (s.conn i).pushStream.chunkPos + 1 = (s.conn i).pushStream.header.end_ :=
    iff_of_false (by omega) (Nat.ne_of_lt more)
  cases consumed_takes env steady stocked reading isOpen (by omega) ends calm with
  | failed e tells => exact ⟨_, _, _, .failed e, tells⟩
  | more _ tells =>
    refine ⟨_, _, _, .more ?_ ?_, tells⟩
    · rw [← List.length_pos_iff, full]
      exact steady.receives.pos
    · rw [length_received steady reading isOpen, full]
      omega
  | stored last => exact absurd last (Nat.ne_of_lt more)

theorem setOnReadChunk_tells (env : Env) {n : ℕ} (steady : ChunkStore.Steady s)
    (stocked : Stocked s stock) (reading : (s.conn i).pending = .readChunk n)
    (enough : n = 0 ∨ s.capacity ≤ (s.conn i).inBuf.length)
    (isOpen : (s.conn i).pushStream.queue = some address) :
    ∃ deals said phase, Broker.Receives address (s.conn i).req
        (gathered (s.object address).contents (s.conn i).pushStream)
        ((s.conn i).inBuf.take (required s.chunkSize (s.conn i))) deals said phase ∧
      Tells i (s.setOnReadChunk i env) stock deals said phase := by
  have there : i < s.conns.length := Server.conn_there (by simp [reading])
  have buffered := (steady.receives.reading i n reading).buffered enough
  obtain ⟨pushing, some⟩ := steady.pushing reading enough
  have calm : Calm i s (s.setOnReadChunk i env) :=
    (setOnReadChunk_calm (steady.ready there) steady.receives.pos pushing some).1
  unfold required at buffered ⊢
  dsimp only at buffered ⊢
  by_cases rest : (s.conn i).req.numBytes - (s.conn i).pushStream.tell ≤ s.chunkSize
  · rw [if_neg (Nat.not_lt.mpr rest)] at buffered ⊢
    exact lastChunk_tells env steady stocked reading isOpen rest buffered calm
  · rw [if_pos (Nat.lt_of_not_le rest)] at buffered ⊢
    exact nextChunk_tells env steady stocked reading isOpen (Nat.lt_of_not_le rest) buffered calm

theorem told_tells {deeds : List Deed} {said : Bytes} {phase : Broker.Phase} (ready : Ready i s)
    (stocked : Stocked s stock) (told : Told i s s' deeds said phase) :
    Tells i s' stock (deeds.map (deal i)) said phase :=
  ⟨stocked_acts ready stocked told.acts, told.text, told.stands⟩

theorem tells_reply (ready : Ready i s) (stocked : Stocked s stock) (acts : Acts i [] s t)
    (text : Bytes) : Tells i (t.reply i text .readRequest) stock [] text .asking :=
  told_tells ready stocked (told_reply acts (acts.there ready) text)

def Lines (text : Bytes) : Prop :=
  ∃ lines : List Bytes, (∀ line ∈ lines, ascii "STAT " <+: line) ∧ lines.flatten = text

theorem lines_one {line : Bytes} (stat : ascii "STAT " <+: line) : Lines line :=
  ⟨[line], by simpa using stat, by simp⟩

theorem Lines.append {text text' : Bytes} (first : Lines text) (second : Lines text') :
    Lines (text ++ text') := by
  obtain ⟨lines, each, rfl⟩ := first
  obtain ⟨lines', each', rfl⟩ := second
  refine ⟨lines ++ lines', fun line mem => ?_, List.flatten_append⟩
  exact (List.mem_append.mp mem).elim (each line) (each' line)

theorem lines_flatMap {α : Type} {f : α → Bytes} (each : ∀ a, Lines (f a)) (as : List α) :
    Lines (as.flatMap f) := by
  induction as with
  | nil => exact ⟨[], by simp, rfl⟩
  | cons a as ih =>
    rw [List.flatMap_cons]
    exact (each a).append ih

theorem lines_stat (name : String) (value : ℕ) : Lines (Server.statLine name value) := by
  refine lines_one ?_
  simp only [Server.statLine, List.append_assoc]
  exact List.prefix_append _ _

theorem lines_queue (name : Bytes) (q : Queue) : Lines (Server.queueStatsText name q) := by
  have line : ∀ (what : String) (value : ℕ), Lines
      (ascii "STAT queue_" ++ name ++ ascii what ++ decimalText value ++ ascii "\r\n") := by
    intro what value
    refine lines_one ?_
    simp only [List.append_assoc]
    exact (show ascii "STAT " <+: ascii "STAT queue_" by decide).trans (List.prefix_append _ _)
  exact ((line _ _).append (line _ _)).append (line _ _)

theorem figures_stats (s : Server) (env : Env) :
    Figures (Server.statsText s.stats env ++ (s.queueNames.flatMap fun name =>
      Server.queueStatsText name (s.object ((s.queues.lookup name).getD 0))) ++
      ascii "END\r\n") := by
  have stats : Lines (Server.statsText s.stats env) := by
    have version : Lines (ascii "STAT version 0.2.0\r\n") := lines_one (by decide)
    have one := lines_stat
    exact ((((((((one _ _).append (one _ _)).append version).append (one _ _)).append
      (one _ _)).append (one _ _)).append (one _ _)).append (one _ _)).append (one _ _)
  obtain ⟨lines, each, same⟩ := stats.append (lines_flatMap (fun name =>
    lines_queue name (s.object ((s.queues.lookup name).getD 0))) s.queueNames)
  rw [← same]
  exact .intro lines each

theorem heads_withQueue (s : Server) (name : Bytes) : SameHeads s (s.withQueue name) := by
  intro a
  by_cases new : a = s.objects.length
  · subst new
    rw [Server.object_withQueue_self, Server.object_beyond (le_refl _)]
    rfl
  · rw [Server.object_withQueue_ne s name new]

theorem heads_withoutQueue (s : Server) (name : Bytes) (address : ℕ) :
    SameHeads s (s.withoutQueue name address) := by
  have heads : SameHeads s (s.setObject address ((s.object address).destroy s.paths)) :=
    heads_setObject (unseen_destroy _ _).head
  exact fun a => heads a

theorem acts_eraseQueue {name : Bytes} {recreate : Bool} (ready : Ready i s)
    (erase : s.eraseQueue name recreate = .ok t) : Acts i [] s t := by
  refine acts_calm (calm_eraseQueue i ready.named erase) ?_
  rcases Server.eraseQueue_ok erase with rfl | ⟨a, -, rfl | rfl⟩
  · exact fun _ => rfl
  · exact heads_withoutQueue s name a
  · exact (heads_withoutQueue s name a).trans (heads_withQueue _ name)

theorem namesOf_eraseQueue {name : Bytes} {recreate : Bool}
    (erase : s.eraseQueue name recreate = .ok t) :
    namesOf t = if recreate then (namesOf s).flush name
      else ⟨(namesOf s).lane.erase name, (namesOf s).made⟩ := by
  unfold Server.eraseQueue at erase
  split at erase
  case h_1 none =>
    rw [← Except.ok.inj erase, Names.flush]
    split
    · rw [if_pos (by exact none)]
    · refine congrArg (fun lane => (⟨lane, s.objects.length⟩ : Names)) (Finmap.ext_lookup fun other => ?_)
      by_cases same : other = name
      · rw [same, none, Finmap.lookup_erase]
      · rw [Finmap.lookup_erase_ne same]
        rfl
  case h_2 address found =>
    dsimp only at erase
    have length : (s.withoutQueue name address).objects.length = s.objects.length :=
      List.length_set
    split at erase
    case isTrue again =>
      cases new : (s.withoutQueue name address).newQueue name with
      | error fault =>
        change ((s.withoutQueue name address).newQueue name).map Prod.snd = .ok t at erase
        rw [new] at erase
        cases erase
      | ok pair =>
        change ((s.withoutQueue name address).newQueue name).map Prod.snd = .ok t at erase
        rw [new] at erase
        rw [← Except.ok.inj erase, (Server.newQueue_ok new).2, if_pos again, Names.flush, if_neg]
        · simp [namesOf, Server.withQueue, Server.withoutQueue, Server.setObject]
        · exact found ▸ Option.some_ne_none address
    case isFalse once =>
      rw [← Except.ok.inj erase, if_neg once]
      exact congrArg (fun made => (⟨s.queues.erase name, made⟩ : Names)) length

theorem opened_push (address : ℕ) (q : Queue) (count : ℕ) (sync : Bool)
    (closed : stream.queue = none) :
    (stream.open_ address q count sync).2.1.queue = some address ∧
    (stream.open_ address q count sync).2.1.chunkPos =
      (stream.open_ address q count sync).2.1.header.beg ∧
    (stream.open_ address q count sync).2.2.queueHead = q.queueHead := by
  have shut : ¬stream.queue.isSome = true := by
    rw [closed]
    exact Bool.false_ne_true
  refine ⟨queue_oopen stream address q count sync closed, ?_, ?_⟩
  · rw [OQStream.open_, if_neg shut]
  · rw [OQStream.open_, if_neg shut]
    dsimp only
    split <;> rfl

theorem set_told (ready : Ready i s) (pos : 0 < s.chunkSize)
    (size : (s.conn i).req.numBytes < 2 ^ 32) (run : s.set i = .ok s')
    (fits : ∀ a, (s'.object a).chunksHead.id < wordSize) :
    ∃ lane, Finds (s.conn i).req.queue (namesOf s) lane (namesOf s') ∧
      Told i s s' [] [] (.storing lane (s.conn i).req []) := by
  have calm := (set_calm ready pos size run fits).1
  obtain ⟨a, t, u, found, opened, rfl⟩ := Server.set_ok run
  obtain ⟨-, conns, -, -⟩ := calm_queueAt i found
  have same : t.conn i = s.conn i := Server.conn_congr conns i
  have there : i < t.conns.length := conns ▸ ready.there
  obtain ⟨closed, rfl⟩ := pushOpen_ok opened
  rw [same] at closed calm ⊢
  obtain ⟨queue, start, head⟩ := opened_push a (t.object a)
    (((s.conn i).req.numBytes + t.chunkSize - 1) / t.chunkSize) (s.conn i).req.setSync closed
  generalize (s.conn i).pushStream.open_ a (t.object a) _ _ = result at queue start head calm ⊢
  have conn := Server.conn_setObject_setConn a result.2.2
    { s.conn i with pushStream := result.2.1 } there
  have there' : i < ((t.setObject a result.2.2).setConn i
      { s.conn i with pushStream := result.2.1 }).conns.length :=
    lt_of_lt_of_eq there List.length_set.symm
  have reading := conn_readNextChunk there'
  rw [conn] at reading
  have heads : SameHeads t (t.setObject a result.2.2) := heads_setObject head
  refine ⟨a, ?_, ⟨calm, (sameHeads_queueAt found).trans heads⟩, ?_, ?_⟩
  · have names : namesOf ((t.setObject a result.2.2).setConn i
        { s.conn i with pushStream := result.2.1 }) = namesOf t := by
      rw [namesOf_setConn, namesOf_setObject]
    exact names ▸ namesOf_finds found
  · rw [reading, sent]
  · have stands : Stands _ i _ := .storing (congrArg Handler.pending reading)
      ((congrArg (fun h => h.pushStream.queue) reading).trans queue)
    rw [reading, gathered] at stands
    dsimp only at stands
    rw [start, chunksOf_self, ite_self] at stands
    exact stands

theorem known_type {line : Bytes} {req : Request} (asked : Request.parse line = some req) :
    req.type ≠ .unset := by
  obtain ⟨command, ending, -, -, denotes⟩ := Request.parse_some.mp asked
  exact Request.denotes_type denotes

theorem dispatch_tells {line : Bytes} {env : Env} (ready : Ready i s) (stocked : Stocked s stock)
    (pos : 0 < s.chunkSize) (size : (s.conn i).req.numBytes < 2 ^ 32)
    (asked : Request.parse line = some (s.conn i).req) (run : s.dispatch i env = .ok s')
    (fits : ∀ a, (s'.object a).chunksHead.id < wordSize) :
    ∃ deals said phase, Hears i stock (namesOf s) line deals said phase (namesOf s') ∧
      Tells i s' stock deals said phase := by
  have here := Acts.refl i s
  have counted : ∀ stats : Stats, Acts i [] s { s with stats := stats } := fun stats =>
    acts_calm (calm_stats i s stats) fun _ => rfl
  unfold Server.dispatch at run
  split at run
  case h_1 type => exact absurd type (known_type asked)
  case h_2 type =>
    rw [← Except.ok.inj run]
    exact ⟨[], _, _, .stats asked type (figures_stats s env), tells_reply ready stocked here _⟩
  case h_3 type =>
    rw [← Except.ok.inj run]
    exact ⟨[], _, _, .version asked type, tells_reply ready stocked here _⟩
  case h_4 type =>
    obtain ⟨u, erased, rfl⟩ := Server.destroy_ok run
    have names := namesOf_eraseQueue erased
    rw [if_neg Bool.false_ne_true] at names
    refine ⟨[], _, _, ?_, tells_reply ready stocked (acts_eraseQueue ready erased) _⟩
    exact names ▸ .destroy asked type
  case h_5 type =>
    obtain ⟨u, erased, rfl⟩ := Server.flush_ok run
    have names := namesOf_eraseQueue erased
    rw [if_pos rfl] at names
    refine ⟨[], _, _, ?_, tells_reply ready stocked (acts_eraseQueue ready erased) _⟩
    exact names ▸ .flush asked type
  case h_6 type =>
    unfold Server.flushAll at run
    split at run
    case isTrue none =>
      rw [← Except.ok.inj run]
      exact ⟨[], _, _, .flushAll asked type none, tells_reply ready stocked here _⟩
    case isFalse => cases run
  case h_7 type =>
    have acts : Acts i [] s s.countSet := counted _
    have ready' := acts.ready ready
    obtain ⟨lane, finds, told⟩ := set_told ready' pos size run fits
    exact ⟨[], _, _, .set asked type finds, told_tells ready stocked (told.acting acts)⟩
  case h_8 type =>
    have acts : Acts i [] s s.countGet := counted _
    have ready' := acts.ready ready
    have stocked' : Stocked s.countGet stock := stocked_calm ready.sound stocked acts.after acts.heads
    obtain ⟨deeds, said, phase, gets, told⟩ := get_told ready' stocked' run
    exact ⟨_, said, phase, .get asked type gets, told_tells ready stocked (told.acting acts)⟩

theorem parseRequest_tells {n : ℕ} {env : Env} (ready : Ready i s) (stocked : Stocked s stock)
    (pos : 0 < s.chunkSize) (run : s.parseRequest i n env = .ok s')
    (fits : ∀ a, (s'.object a).chunksHead.id < wordSize) :
    ∃ deals said phase, Hears i stock (namesOf s) ((s.conn i).inBuf.take n) deals said phase
        (namesOf s') ∧
      Tells i s' stock deals said phase := by
  have there := ready.there
  unfold Server.parseRequest at run
  dsimp only at run
  split at run
  case h_1 none =>
    rw [← Except.ok.inj run]
    exact ⟨[], _, _, .garbled none,
      told_tells ready stocked (told_error (.refl i s) there _)⟩
  case h_2 req asked =>
    have conn := Server.conn_setConn_self
      { s.conn i with req := req, inBuf := (s.conn i).inBuf.drop n } there
    have acts : Acts i [] s (s.setConn i
        { s.conn i with req := req, inBuf := (s.conn i).inBuf.drop n }) :=
      acts_calm (calm_setConn there (fun _ => rfl) fun _ => rfl) fun _ => rfl
    have stocked' := stocked_calm ready.sound stocked acts.after acts.heads
    have small : ((s.setConn i { s.conn i with req := req, inBuf := (s.conn i).inBuf.drop n }).conn
        i).req.numBytes < 2 ^ 32 := by
      rw [conn]
      exact Request.numBytes_parse asked
    have line : Request.parse ((s.conn i).inBuf.take n) = some ((s.setConn i
        { s.conn i with req := req, inBuf := (s.conn i).inBuf.drop n }).conn i).req := by
      rw [conn]
      exact asked
    have done := dispatch_tells (acts.ready ready) stocked' pos small line run fits
    exact done

end Darner.BrokerSets
