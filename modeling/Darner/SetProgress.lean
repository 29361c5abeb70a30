import Darner.ServerCalls

/-! The set loop. An item of `num_bytes` bytes is cut into chunks of `chunk_size_`
bytes, the last of them shorter. The stream is opened for as many chunks as that
makes, so that `tell()` reaches `num_bytes` with the write that closes the stream:
a client that is answered `STORED` has its item in the queue. -/

namespace Darner.SetProgress
open OrderedStore LabelledRuns ServerMoves ServerWaiters FetchDeeds FetchEvents ServerCalls

/-- How far a push stream has come with an item of `size` bytes. -/
structure Filling (chunkSize size : ℕ) (stream : OQStream) : Prop where
  start : stream.header.beg ≤ stream.chunkPos
  stop : stream.chunkPos < stream.header.end_
  told : stream.tell = (stream.chunkPos - stream.header.beg) * chunkSize
  most : size ≤ (stream.header.end_ - stream.header.beg) * chunkSize
  least : stream.header.end_ = stream.header.beg + 1 ∨
    (stream.header.end_ - stream.header.beg - 1) * chunkSize < size

variable {chunkSize size : ℕ} {stream : OQStream}

theorem Filling.told_le (h : Filling chunkSize size stream) : stream.tell ≤ size := by
  have start := h.start
  have stop := h.stop
  rw [h.told]
  rcases h.least with single | less
  · rw [show stream.chunkPos - stream.header.beg = 0 by omega, Nat.zero_mul]
    exact Nat.zero_le _
  · have le : stream.chunkPos - stream.header.beg ≤ stream.header.end_ - stream.header.beg - 1 := by
      omega
    exact (Nat.mul_le_mul_right _ le).trans less.le

theorem Filling.last (h : Filling chunkSize size stream) (rest : size - stream.tell ≤ chunkSize) :
    stream.chunkPos + 1 = stream.header.end_ := by
  have start := h.start
  have stop := h.stop
  by_contra more
  rcases h.least with single | less
  · omega
  · have le : stream.chunkPos - stream.header.beg + 1 ≤
        stream.header.end_ - stream.header.beg - 1 := by omega
    have chunks := Nat.mul_le_mul_right chunkSize le
    rw [Nat.add_mul, Nat.one_mul, ← h.told] at chunks
    omega

theorem Filling.more (h : Filling chunkSize size stream) (rest : chunkSize < size - stream.tell) :
    stream.chunkPos + 1 < stream.header.end_ := by
  have start := h.start
  have most := h.most
  have chunks : (stream.chunkPos - stream.header.beg + 1) * chunkSize <
      (stream.header.end_ - stream.header.beg) * chunkSize := by
    rw [Nat.add_mul, Nat.one_mul, ← h.told]
    omega
  have := Nat.lt_of_mul_lt_mul_right chunks
  omega

theorem Filling.advance (h : Filling chunkSize size stream)
    (rest : chunkSize < size - stream.tell) :
    Filling chunkSize size (stream.advance chunkSize) where
  start := Nat.le_succ_of_le h.start
  stop := h.more rest
  told := by
    have start := h.start
    have told := h.told
    simp only [OQStream.tell, OQStream.advance] at told ⊢
    rw [Nat.sub_add_comm start, Nat.add_mul, Nat.one_mul, told]
  most := h.most
  least := h.least

theorem filling_open (address : ℕ) (q : Queue) (sync : Bool) (pos : 0 < chunkSize)
    (closed : stream.queue = none) :
    Filling chunkSize size
      (stream.open_ address q ((size + chunkSize - 1) / chunkSize) sync).2.1 := by
  generalize count : (size + chunkSize - 1) / chunkSize = chunks
  have below : size + chunkSize - 1 < (chunks + 1) * chunkSize := by
    rw [← Nat.div_lt_iff_lt_mul pos, count]
    exact Nat.lt_succ_self _
  have above : chunks * chunkSize ≤ size + chunkSize - 1 := by
    rw [← Nat.le_div_iff_mul_le pos, count]
  rw [Nat.add_mul, Nat.one_mul] at below
  simp only [OQStream.open_, closed, Option.isSome_none, Bool.false_eq_true, if_false]
  split
  case isTrue several =>
    refine ⟨le_refl _, ?_, ?_, ?_, .inr ?_⟩ <;> simp only [Queue.reserveChunks, OQStream.tell]
    · omega
    · rw [Nat.sub_self, Nat.zero_mul]
    · rw [Nat.add_sub_cancel_left]
      omega
    · have two : 2 * chunkSize ≤ chunks * chunkSize := Nat.mul_le_mul_right _ several
      rw [Nat.add_sub_cancel_left, Nat.sub_mul, Nat.one_mul]
      omega
  case isFalse single =>
    refine ⟨le_refl _, Nat.one_pos, ?_, ?_, .inl rfl⟩ <;> simp only [OQStream.tell]
    · rw [Nat.sub_self, Nat.zero_mul]
    · have le : chunks * chunkSize ≤ 1 * chunkSize := Nat.mul_le_mul_right _ (by omega)
      omega

structure Published (chunk : Bytes) (stray : UInt8) (q q' : Queue) (stream : OQStream) : Prop where
  closed : stream.queue = none
  id : stream.id = q.queueHead.id
  head : q'.queueHead = { q.queueHead with id := q.queueHead.id + 1 }
  tail : q'.queueTail = q.queueTail
  entry : q'.contents.lookup q.queueHead =
    some (if stream.header.end_ ≤ 1 then escape chunk stray else stream.header.str)

theorem published_pushed {q : Queue} {value : Bytes} {sync : Bool} :
    (q.pushed value sync).wakeUp.queueHead = { q.queueHead with id := q.queueHead.id + 1 } ∧
    (q.pushed value sync).wakeUp.queueTail = q.queueTail ∧
    (q.pushed value sync).wakeUp.contents.lookup q.queueHead = some value := by
  obtain ⟨waiters, it, same⟩ := Queue.wakeUp_eq (q.pushed value sync)
  rw [same]
  refine ⟨rfl, rfl, ?_⟩
  have entry := q.lookup_pushed value sync q.queueHead
  rwa [if_pos rfl] at entry

theorem write_more (q : Queue) {chunk : Bytes} (stray : UInt8) (io : Io)
    (filling : Filling chunkSize size stream) (isOpen : stream.queue.isSome)
    (rest : chunkSize < size - stream.tell) (full : chunk.length = chunkSize) :
    (∃ e stream' q', stream.write q chunk stray io = (.error e, stream', q')) ∨
    ∃ stream' q', stream.write q chunk stray io = (.ok (), stream', q') ∧
      stream'.queue = stream.queue ∧ Filling chunkSize size stream' ∧
      stream'.tell = stream.tell + chunkSize := by
  have stop := filling.stop
  have more := filling.more rest
  rcases stream.write_cases q chunk stray io with
    ⟨stuck, -⟩ | ⟨-, -, ⟨e, -, h⟩ | ⟨stream', q', store, h⟩⟩
  · rcases stuck with closed | finished
    · rw [closed] at isOpen
      cases isOpen
    · omega
  · exact .inl ⟨e, stream, q, h⟩
  · rcases OQStream.store_ok store with ⟨single, -⟩ | ⟨-, -, rfl⟩
    · omega
    · right
      rw [full] at h
      rcases (stream'.advance chunkSize).finish_cases q' (io 1) with
        ⟨-, last⟩ | ⟨finished, -⟩ | ⟨finished, -⟩
      · exact ⟨_, _, h.trans last, rfl, filling.advance rest, rfl⟩
      · exact absurd finished (Nat.ne_of_lt more)
      · exact absurd finished (Nat.ne_of_lt more)

theorem write_last (q : Queue) {chunk : Bytes} (stray : UInt8) (io : Io)
    (filling : Filling chunkSize size stream) (isOpen : stream.queue.isSome)
    (rest : size - stream.tell ≤ chunkSize) (full : chunk.length = size - stream.tell) :
    (∃ e stream' q', stream.write q chunk stray io = (.error e, stream', q')) ∨
    ∃ stream' q', stream.write q chunk stray io = (.ok (), stream', q') ∧
      stream'.tell = size ∧ stream'.header.end_ = stream.header.end_ ∧
      Published chunk stray q q' stream' := by
  have stop := filling.stop
  have last := filling.last rest
  have told := filling.told_le
  have tell : stream.header.size + chunk.length = size := by
    rw [full, ← OQStream.tell]
    omega
  rcases stream.write_cases q chunk stray io with
    ⟨stuck, -⟩ | ⟨-, -, ⟨e, -, h⟩ | ⟨stream', q', store, h⟩⟩
  · rcases stuck with closed | finished
    · rw [closed] at isOpen
      cases isOpen
    · omega
  · exact .inl ⟨e, stream, q, h⟩
  · rcases OQStream.store_ok store with ⟨single, id, push, rfl⟩ | ⟨multi, put, rfl⟩
    · right
      obtain ⟨rfl, rfl⟩ := Queue.pushValue_ok push
      rw [h]
      rcases (({ stream with id := q.queueHead.id } : OQStream).advance chunk.length).finish_cases
          _ (io 1) with ⟨unfinished, -⟩ | ⟨-, -, last⟩ | ⟨-, multi, -⟩
      · exact absurd last unfinished
      · obtain ⟨head, tail, entry⟩ := published_pushed (q := q)
        refine ⟨_, _, last, tell, rfl, rfl, rfl, head, tail, ?_⟩
        rw [entry, if_pos (by exact single)]
      · exact absurd multi (Nat.not_lt.mpr single)
    · rw [h]
      rcases (stream'.advance chunk.length).finish_cases q' (io 1) with
        ⟨unfinished, -⟩ | ⟨-, single, -⟩ | ⟨-, -, ⟨e, failed⟩ | ⟨id, q'', push, published⟩⟩
      · exact absurd last unfinished
      · exact absurd multi (Nat.not_lt.mpr single)
      · exact .inl ⟨e, _, _, failed⟩
      · right
        obtain ⟨rfl, rfl⟩ := Queue.pushValue_ok push
        obtain rfl := Queue.put_ok put
        obtain ⟨head, tail, entry⟩ := published_pushed
          (q := { q with journal := q.journal.write ⟨[.put ⟨.chunk, stream'.chunkPos⟩ chunk], false⟩ })
        refine ⟨_, _, published, tell, rfl, rfl, rfl, head, tail, ?_⟩
        rw [entry, if_neg (by exact Nat.not_le.mpr multi)]

def required (chunkSize : ℕ) (h : Handler) : ℕ :=
  let remaining := h.req.numBytes - h.pushStream.tell
  if remaining > chunkSize then chunkSize else remaining + 2

/-- The handler waits for the bytes of a chunk, of which `n` are still to come. -/
structure Receiving (chunkSize : ℕ) (h : Handler) (n : ℕ) : Prop where
  isOpen : h.pushStream.queue.isSome
  filling : Filling chunkSize h.req.numBytes h.pushStream
  missing : n = required chunkSize h - h.inBuf.length

variable {s s' t : Server} {i n : ℕ}

theorem conn_readNextChunk (there : i < s.conns.length) : (s.readNextChunk i).conn i =
    { s.conn i with
      pending := .readChunk (required s.chunkSize (s.conn i) - (s.conn i).inBuf.length) } :=
  Server.conn_setConn_self _ there

theorem receiving_readNextChunk (there : i < s.conns.length)
    (isOpen : (s.conn i).pushStream.queue.isSome)
    (filling : Filling s.chunkSize (s.conn i).req.numBytes (s.conn i).pushStream) :
    Receiving s.chunkSize ((s.readNextChunk i).conn i)
      (required s.chunkSize (s.conn i) - (s.conn i).inBuf.length) := by
  rw [conn_readNextChunk there]
  exact ⟨isOpen, filling, rfl⟩

theorem Receiving.buffered {h : Handler} (receiving : Receiving chunkSize h n)
    (enough : n = 0 ∨ chunkSize + 2 ≤ h.inBuf.length) : required chunkSize h ≤ h.inBuf.length := by
  have missing := receiving.missing
  unfold required at missing ⊢
  dsimp only at missing ⊢
  split at missing <;> split <;> omega

/-- What becomes of the handler when a chunk is there. -/
inductive Took (i : ℕ) (env : Env) (s s' : Server) : Prop where
  | failed {rest text : Bytes} {stream : OQStream} (conn : s'.conn i =
      { s.conn i with inBuf := rest, pushStream := stream, pending := .write text .hangUp })
  | more {stream : OQStream} {n : ℕ} (conn : s'.conn i =
      { s.conn i with inBuf := (s.conn i).inBuf.drop s.chunkSize, pushStream := stream
                      pending := .readChunk n })
      (large : s.chunkSize < (s.conn i).req.numBytes - (s.conn i).pushStream.tell)
      (same : stream.queue = (s.conn i).pushStream.queue)
      (tell : stream.tell = (s.conn i).pushStream.tell + s.chunkSize)
      (receiving : Receiving s.chunkSize (s'.conn i) n)
  | stored {address : ℕ} {stream : OQStream}
      (isOpen : (s.conn i).pushStream.queue = some address)
      (conn : s'.conn i =
        { s.conn i with
          inBuf := (s.conn i).inBuf.drop
            ((s.conn i).req.numBytes - (s.conn i).pushStream.tell + 2)
          pushStream := stream, pending := .write (ascii "STORED\r\n") .readRequest })
      (last : (s.conn i).req.numBytes - (s.conn i).pushStream.tell ≤ s.chunkSize)
      (ending : ((s.conn i).inBuf.drop
        ((s.conn i).req.numBytes - (s.conn i).pushStream.tell)).take 2 = ascii "\r\n")
      (tell : stream.tell = (s.conn i).req.numBytes)
      (stop : stream.header.end_ = (s.conn i).pushStream.header.end_)
      (published : Published
        ((s.conn i).inBuf.take ((s.conn i).req.numBytes - (s.conn i).pushStream.tell)) env.stray
        (s.object address) (s'.object address) stream)

theorem pushWrite_eq {address : ℕ} {chunk : Bytes} {stray : UInt8} {io : Io}
    (isOpen : (s.conn i).pushStream.queue = some address) :
    s.pushWrite i chunk stray io =
      (((s.conn i).pushStream.write (s.object address) chunk stray io).1,
        (s.setObject address
          ((s.conn i).pushStream.write (s.object address) chunk stray io).2.2).setConn i
          { s.conn i with
            pushStream := ((s.conn i).pushStream.write (s.object address) chunk stray io).2.1 }) := by
  rw [Server.pushWrite, isOpen]

theorem storeChunk_error {address : ℕ} {chunk : Bytes} {env : Env} {e : Error} {before stream : OQStream}
    {q₀ q : Queue} (there : i < s.conns.length)
    (isStream : (s.conn i).pushStream = before)
    (isQueue : s.object address = q₀) (isOpen : before.queue = some address)
    (write : before.write q₀ chunk env.stray env.io =
      (.error e, stream, q)) :
    ∃ text, (s.storeChunk i chunk env).conn i =
      { s.conn i with pushStream := stream, pending := .write text .hangUp } := by
  subst isStream isQueue
  have there' : i < ((s.setObject address q).setConn i
      { s.conn i with pushStream := stream }).conns.length :=
    lt_of_lt_of_eq there List.length_set.symm
  refine ⟨ascii "SERVER_ERROR " ++ e.message ++ ascii "\r\n", ?_⟩
  rw [Server.storeChunk, pushWrite_eq isOpen, write]
  simp only [Server.serverError]
  rw [conn_reply there', Server.conn_setObject_setConn address q _ there]

theorem storeChunk_stored {address : ℕ} {chunk : Bytes} {env : Env} {before stream : OQStream}
    {q₀ q : Queue} (there : i < s.conns.length) (made : address < s.objects.length)
    (isStream : (s.conn i).pushStream = before)
    (isQueue : s.object address = q₀) (isOpen : before.queue = some address)
    (write : before.write q₀ chunk env.stray env.io =
      (.ok (), stream, q)) (tell : stream.tell = (s.conn i).req.numBytes) :
    (s.storeChunk i chunk env).conn i =
      { s.conn i with pushStream := stream, pending := .write (ascii "STORED\r\n") .readRequest } ∧
    (s.storeChunk i chunk env).object address = q := by
  subst isStream isQueue
  have conn := Server.conn_setObject_setConn (s := s) address q
    { s.conn i with pushStream := stream } there
  have self := Server.object_setObject_self (s := s) q made
  have length : ((s.setObject address q).setConn i
    { s.conn i with pushStream := stream }).conns.length = s.conns.length := List.length_set
  rw [Server.storeChunk, pushWrite_eq isOpen, write]
  simp only
  rw [if_pos (by rw [conn]; exact tell)]
  refine ⟨?_, self⟩
  rw [Server.end_, conn_reply (by exact length ▸ there)]
  exact congrArg (fun h : Handler =>
    { h with pending := .write (ascii "STORED\r\n") .readRequest }) conn

theorem storeChunk_more {address : ℕ} {chunk : Bytes} {env : Env} {before stream : OQStream}
    {q₀ q : Queue} (there : i < s.conns.length)
    (isStream : (s.conn i).pushStream = before)
    (isQueue : s.object address = q₀) (isOpen : before.queue = some address)
    (write : before.write q₀ chunk env.stray env.io =
      (.ok (), stream, q)) (tell : stream.tell ≠ (s.conn i).req.numBytes)
    (still : stream.queue.isSome)
    (filling : Filling s.chunkSize (s.conn i).req.numBytes stream) :
    ∃ n, (s.storeChunk i chunk env).conn i =
      { s.conn i with pushStream := stream, pending := .readChunk n } ∧
    Receiving s.chunkSize ((s.storeChunk i chunk env).conn i) n := by
  subst isStream isQueue
  have conn := Server.conn_setObject_setConn (s := s) address q
    { s.conn i with pushStream := stream } there
  have length : ((s.setObject address q).setConn i
    { s.conn i with pushStream := stream }).conns.length = s.conns.length := List.length_set
  rw [Server.storeChunk, pushWrite_eq isOpen, write]
  simp only
  rw [if_neg (by rw [conn]; exact tell)]
  have receiving := receiving_readNextChunk (s := (s.setObject address q).setConn i
    { s.conn i with pushStream := stream }) (length ▸ there) (by rw [conn]; exact still)
    (by rw [conn]; exact filling)
  refine ⟨_, ?_, receiving⟩
  rw [conn_readNextChunk (length ▸ there), conn]

theorem consumed (rest : Bytes) (there : i < s.conns.length) :
    ∃ t, s.setConn i { s.conn i with inBuf := rest } = t ∧ i < t.conns.length ∧
      t.conn i = { s.conn i with inBuf := rest } ∧ t.objects = s.objects ∧
      t.chunkSize = s.chunkSize :=
  ⟨_, rfl, lt_of_lt_of_eq there List.length_set.symm, Server.conn_setConn_self _ there, rfl, rfl⟩

theorem setOnReadChunk_took {env : Env} (there : i < s.conns.length)
    (made : ∀ address, (s.conn i).pushStream.queue = some address → address < s.objects.length)
    (receiving : Receiving s.chunkSize (s.conn i) n)
    (enough : n = 0 ∨ s.capacity ≤ (s.conn i).inBuf.length) :
    Took i env s (s.setOnReadChunk i env) := by
  obtain ⟨address, isOpen⟩ := Option.isSome_iff_exists.mp receiving.isOpen
  have filling := receiving.filling
  have buffered := receiving.buffered enough
  unfold required at buffered
  dsimp only at buffered
  unfold Server.setOnReadChunk
  dsimp only
  split
  case isTrue rest =>
    rw [if_neg (by omega)] at buffered
    split
    · exact .failed (by rw [Server.error, conn_reply there])
    case isFalse ending =>
      obtain ⟨t, same, there', conn, objects, -⟩ := consumed ((s.conn i).inBuf.drop
        ((s.conn i).req.numBytes - (s.conn i).pushStream.tell + 2)) there
      rw [same]
      have object : t.object address = s.object address := by
        rw [Server.object, objects, Server.object]
      have same' : (t.conn i).pushStream = (s.conn i).pushStream := by rw [conn]
      have full : ((s.conn i).inBuf.take
          ((s.conn i).req.numBytes - (s.conn i).pushStream.tell)).length =
          (s.conn i).req.numBytes - (s.conn i).pushStream.tell := by
        rw [List.length_take]
        omega
      rcases write_last (s.object address) env.stray env.io filling
          receiving.isOpen rest full with
        ⟨e, stream, q, write⟩ | ⟨stream, q, write, tell, stop, published⟩
      · obtain ⟨text, failed⟩ := storeChunk_error there' same' object isOpen write
        exact .failed (by rw [failed, conn])
      · obtain ⟨stored, object'⟩ := storeChunk_stored there' (objects ▸ made address isOpen)
          same' object isOpen write (by rw [conn]; exact tell)
        refine .stored isOpen (by rw [stored, conn]) rest (not_not.mp ending) tell stop ?_
        rw [object']
        exact published
  case isFalse rest =>
    rw [if_pos (by omega)] at buffered
    obtain ⟨t, same, there', conn, objects, size⟩ :=
      consumed ((s.conn i).inBuf.drop s.chunkSize) there
    rw [same]
    have object : t.object address = s.object address := by
      rw [Server.object, objects, Server.object]
    have same' : (t.conn i).pushStream = (s.conn i).pushStream := by rw [conn]
    have full : ((s.conn i).inBuf.take s.chunkSize).length = s.chunkSize := by
      rw [List.length_take]
      omega
    rcases write_more (s.object address) env.stray env.io filling
        receiving.isOpen (Nat.lt_of_not_le rest) full with
      ⟨e, stream, q, write⟩ | ⟨stream, q, write, still, filling', tell⟩
    · obtain ⟨text, failed⟩ := storeChunk_error there' same' object isOpen write
      exact .failed (by rw [failed, conn])
    · obtain ⟨n, conn', receiving'⟩ := storeChunk_more there' same' object isOpen write
        (by rw [conn]; simp only; omega) (by rw [still]; exact receiving.isOpen)
        (by rw [conn, size]; exact filling')
      exact .more (by rw [conn', conn]) (Nat.lt_of_not_le rest) still tell (size ▸ receiving')

/-- Every handler that waits for a chunk has come as far as its stream says. -/
structure AllReceiving (s : Server) : Prop where
  pos : 0 < s.chunkSize
  reading : ∀ j n, (s.conn j).pending = .readChunk n → Receiving s.chunkSize (s.conn j) n

theorem receiving_recv {data : Bytes} (there : i < s.conns.length)
    (reading : ∀ n, (s.conn i).pending = .readChunk n → Receiving s.chunkSize (s.conn i) n)
    (n : ℕ) (pending : ((s.recv i data).conn i).pending = .readChunk n) :
    Receiving s.chunkSize ((s.recv i data).conn i) n := by
  rcases recv_cases s i data with same | ⟨-, ⟨until_, -, same⟩ | ⟨m, -, chunk, same⟩⟩
  · rw [same] at pending ⊢
    exact reading n pending
  · rw [same, Server.conn_setConn_self _ there] at pending
    rw [show (s.conn i).pending = .readChunk n from pending] at until_
    cases until_
  · rw [same, Server.conn_setConn_self _ there] at pending
    rw [same, Server.conn_setConn_self _ there]
    obtain ⟨isOpen, filling, missing⟩ := reading m chunk
    refine ⟨isOpen, filling, ?_⟩
    rw [← Pending.readChunk.inj pending, missing, Nat.sub_sub]
    exact congrArg (required s.chunkSize (s.conn i) - ·) List.length_append.symm

theorem receiving_set {address count : ℕ} (there : i < s.conns.length) (pos : 0 < s.chunkSize)
    (counts : count = ((s.conn i).req.numBytes + s.chunkSize - 1) / s.chunkSize)
    {sync : Bool} (opened : s.pushOpen i address count sync = .ok t) (n : ℕ)
    (pending : ((t.readNextChunk i).conn i).pending = .readChunk n) :
    Receiving s.chunkSize ((t.readNextChunk i).conn i) n := by
  obtain ⟨closed, rfl⟩ := pushOpen_ok opened
  have conn := Server.conn_setObject_setConn (s := s) address
    ((s.conn i).pushStream.open_ address (s.object address) count sync).2.2
    { s.conn i with
      pushStream := ((s.conn i).pushStream.open_ address (s.object address) count sync).2.1 } there
  have length : ((s.setObject address
    ((s.conn i).pushStream.open_ address (s.object address) count sync).2.2).setConn i
    { s.conn i with pushStream :=
      ((s.conn i).pushStream.open_ address (s.object address) count sync).2.1 }).conns.length =
      s.conns.length := List.length_set
  have queue := queue_oopen _ address (s.object address) count sync closed
  have receiving := receiving_readNextChunk (s := (s.setObject address
    ((s.conn i).pushStream.open_ address (s.object address) count sync).2.2).setConn i
    { s.conn i with pushStream :=
      ((s.conn i).pushStream.open_ address (s.object address) count sync).2.1 })
    (length ▸ there) (by rw [conn]; simp only; rw [queue]; rfl) (by
      rw [conn, counts]
      exact filling_open address (s.object address) sync pos closed)
  rw [conn_readNextChunk (length ▸ there)] at pending
  rw [← Pending.readChunk.inj pending]
  exact receiving

inductive Awaits (i : ℕ) (s s' : Server) : Prop where
  | still (conn : s'.conn i = s.conn i)
      (kept : ∀ name a, s.queues.lookup name = some a → s'.queues.lookup name = some a)
  | begun {address : ℕ} {t : Server}
      (found : s.queues.lookup (s.conn i).req.queue = some address)
      (opened : s.pushOpen i address
        (((s.conn i).req.numBytes + s.chunkSize - 1) / s.chunkSize) (s.conn i).req.setSync = .ok t)
      (after : s' = t.readNextChunk i)
  | received {data : Bytes} (after : s' = s.recv i data)
  | took {env : Env} {n : ℕ} (reading : (s.conn i).pending = .readChunk n)
      (enough : n = 0 ∨ s.capacity ≤ (s.conn i).inBuf.length) (after : s' = s.setOnReadChunk i env)

theorem Call.awaits {io : Io} {deletes : Bytes → Prop} (there : i < s.conns.length)
    (call : Call i io deletes s s') (pending : (s'.conn i).pending = .readChunk n) :
    Awaits i s s' := by
  cases call with
  | touch pop push free plain =>
    rw [Server.conn_setConn_self _ there] at pending
    exact absurd pending (plain.1 n)
  | count stats => exact .still rfl fun _ _ found => found
  | make absent unused => exact .still rfl fun _ _ found => Server.lookup_withQueue_old absent found
  | delete free asked found => exact absurd pending (free.2 n)
  | fetch free found opened read =>
    obtain ⟨-, stream, conn⟩ := conn_fetch there opened read
    rw [conn] at pending
    exact absurd pending (free.2 n)
  | fetchFailed free found opened read =>
    obtain ⟨there', -⟩ := conn_fetch there opened read
    rw [Server.serverError, conn_reply there'] at pending
    cases pending
  | read io' free =>
    obtain ⟨-, stream, conn⟩ := conn_popRead there io'
    rw [conn] at pending
    exact absurd pending (free.2 n)
  | close m free closed =>
    obtain ⟨-, same, -⟩ := pending_popClose there closed
    rw [same] at pending
    exact absurd pending (free.2 n)
  | set free found opened => exact .begun found opened rfl
  | receive data => exact .received rfl
  | chunk outcome reading enough => exact .took reading enough rfl
  | drop m =>
    rw [conn_drop there] at pending
    cases pending

theorem call_receives {io : Io} {deletes : Bytes → Prop} (s s' : Server)
    (there : i < s.conns.length) (h : Sited s ∧ AllReceiving s) (call : Call i io deletes s s') :
    Sited s' ∧ AllReceiving s' := by
  obtain ⟨sited, receives⟩ := h
  have chunkSize := call.chunkSize there
  refine ⟨call_sited s s' there sited call, chunkSize ▸ receives.pos, fun j n pending => ?_⟩
  rw [chunkSize]
  by_cases same : j = i
  case neg =>
    rw [call.others there same] at pending ⊢
    exact receives.reading j n pending
  subst same
  rcases Call.awaits there call pending with
    ⟨conn, -⟩ | ⟨-, opened, rfl⟩ | ⟨rfl⟩ | ⟨reading, enough, rfl⟩
  · rw [conn] at pending ⊢
    exact receives.reading j n pending
  · exact receiving_set there receives.pos rfl opened n pending
  · exact receiving_recv there (receives.reading j) n pending
  · cases setOnReadChunk_took there (fun a isOpen => sited.held j a (.inr isOpen))
      (receives.reading j _ reading) enough with
    | failed conn =>
      rw [conn] at pending
      cases pending
    | more conn large same tell receiving =>
      rw [conn] at pending
      rw [← Pending.readChunk.inj pending]
      exact receiving
    | stored isOpen conn last ending tell stop published =>
      rw [conn] at pending
      cases pending

theorem Leaves.receives (there : i < s.conns.length) (leaves : Leaves i s s')
    (receives : AllReceiving s) : AllReceiving s' := by
  cases leaves with
  | done => exact receives
  | waits found closed empty =>
    refine ⟨receives.pos, fun j n => ?_⟩
    rw [conn_waits there]
    split
    case isTrue =>
      intro pending
      cases pending
    case isFalse => exact receives.reading j n

theorem Begins.receives {event : ServerEvent} (begins : Begins i event s t) (receives : AllReceiving s) :
    AllReceiving t := by
  cases begins with
  | ready => exact receives
  | woken => exact ⟨receives.pos, receives.reading⟩

theorem step_receives {event : ServerEvent} (awake : Awake none s) (sited : Sited s)
    (receives : AllReceiving s) (run : s.Step event s') : AllReceiving s' := by
  cases step_serves awake run with
  | nothing => exact receives
  | accept =>
    refine ⟨receives.pos, fun j n pending => ?_⟩
    rcases conn_accept s _ j with same | new
    · rw [same] at pending ⊢
      exact receives.reading j n pending
    · rw [new] at pending
      cases pending
  | expire a node => exact ⟨receives.pos, receives.reading⟩
  | calls who there begins calls leaves =>
    obtain ⟨there', -, receives'⟩ := calls.invariant call_receives (begins.conns ▸ there)
      ⟨begins.sited sited, Begins.receives begins receives⟩
    exact Leaves.receives there' leaves receives'

theorem receives_started (started : s.Started) : AllReceiving s := by
  refine ⟨started.chunkSize_pos, fun j n pending => ?_⟩
  rw [started.closed j] at pending
  cases pending

def awaits (pending : Pending) : ServerEvent → Bool
  | .recv _ _ | .readDone _ _ | .readFailed _ _ =>
    match pending with
    | .readUntil | .readChunk _ => true
    | _ => false
  | .writeDone _ _ | .writeFailed _ _ =>
    match pending with
    | .write _ _ => true
    | _ => false
  | .callback _ _ _ =>
    match pending with
    | .wait _ _ => true
    | _ => false
  | .accept | .expire _ _ => false

theorem step_unawaited {event : ServerEvent} (awake : Awake none s)
    (mine : serving s event = some i) (unawaited : awaits (s.conn i).pending event = false)
    (run : s.Step event s') : s' = s := by
  cases event with
  | accept => cases mine
  | expire a node => cases mine
  | recv j data =>
    obtain rfl := Option.some.inj mine
    obtain rfl := Except.ok.inj run
    rcases recv_cases s j data with same | ⟨-, ⟨line, -⟩ | ⟨m, -, chunk, -⟩⟩
    · exact same
    · rw [line] at unawaited
      cases unawaited
    · rw [chunk] at unawaited
      cases unawaited
  | readDone j env =>
    obtain rfl := Option.some.inj mine
    have run : s.readDone j env = .ok s' := run
    cases pending : (s.conn j).pending with
    | readUntil | readChunk m =>
      rw [pending] at unawaited
      cases unawaited
    | write | wait | closed =>
      simp only [Server.readDone, pending, Except.ok.injEq] at run
      exact run.symm
  | readFailed j env =>
    obtain rfl := Option.some.inj mine
    have run : s.readFailed j env = s' := Except.ok.inj run
    cases pending : (s.conn j).pending with
    | readUntil | readChunk m =>
      rw [pending] at unawaited
      cases unawaited
    | write | wait | closed =>
      simp only [Server.readFailed, pending] at run
      exact run.symm
  | writeDone j env =>
    obtain rfl := Option.some.inj mine
    have run : s.writeDone j env = s' := Except.ok.inj run
    cases pending : (s.conn j).pending with
    | write =>
      rw [pending] at unawaited
      cases unawaited
    | readUntil | readChunk | wait | closed =>
      simp only [Server.writeDone, pending] at run
      exact run.symm
  | writeFailed j env =>
    obtain rfl := Option.some.inj mine
    have run : s.writeFailed j env = s' := Except.ok.inj run
    cases pending : (s.conn j).pending with
    | write =>
      rw [pending] at unawaited
      cases unawaited
    | readUntil | readChunk | wait | closed =>
      simp only [Server.writeFailed, pending] at run
      exact run.symm
  | callback a node env =>
    -- a waiter in a line is a connection that waits
    obtain ⟨w, due, rfl⟩ := Option.map_eq_some_iff.mp mine
    have pending := (awake.waits a w (dueWaiter_mem due).1).2.pending
    rw [pending] at unawaited
    cases unawaited

inductive Reacts (i n : ℕ) (s : Server) : ServerEvent → Server → Prop where
  | nothing {event : ServerEvent} (early : ∀ env, event = .readDone i env →
      ¬(n = 0 ∨ s.capacity ≤ (s.conn i).inBuf.length)) : Reacts i n s event s
  | bytes {data : Bytes} (room : (s.conn i).inBuf.length + data.length ≤ s.capacity) :
      Reacts i n s (.recv i data) (s.setConn i
        { s.conn i with inBuf := (s.conn i).inBuf ++ data, pending := .readChunk (n - data.length) })
  | chunk {env : Env} (enough : n = 0 ∨ s.capacity ≤ (s.conn i).inBuf.length) :
      Reacts i n s (.readDone i env) (s.setOnReadChunk i env)
  | failed {env : Env} (missing : 0 < n) :
      Reacts i n s (.readFailed i env) (s.drop i (env.io 4))

theorem step_reacts {event : ServerEvent} (awake : Awake none s)
    (reading : (s.conn i).pending = .readChunk n) (mine : serving s event = some i)
    (run : s.Step event s') : Reacts i n s event s' := by
  cases event with
  | recv j data =>
    obtain rfl := Option.some.inj mine
    obtain rfl := Except.ok.inj run
    rcases recv_cases s j data with same | ⟨room, ⟨until_, -⟩ | ⟨m, -, chunk, same⟩⟩
    · rw [same]
      exact .nothing (by simp)
    · rw [reading] at until_
      cases until_
    · obtain rfl := Pending.readChunk.inj (reading.symm.trans chunk)
      rw [same]
      exact .bytes room
  | readDone j env =>
    obtain rfl := Option.some.inj mine
    have run : s.readDone j env = .ok s' := run
    simp only [Server.readDone, reading, Except.ok.injEq] at run
    split at run
    case isTrue enough =>
      rw [← run]
      exact .chunk enough
    case isFalse early =>
      rw [← run]
      exact .nothing fun _ _ => early
  | readFailed j env =>
    obtain rfl := Option.some.inj mine
    have run : s.readFailed j env = s' := Except.ok.inj run
    simp only [Server.readFailed, reading] at run
    split at run
    case isTrue missing =>
      rw [← run]
      exact .failed missing
    case isFalse =>
      rw [← run]
      exact .nothing (by simp)
  | accept | expire | writeDone | writeFailed | callback =>
    obtain rfl := step_unawaited awake mine (by rw [reading]; rfl) run
    exact .nothing (by simp)

end Darner.SetProgress
