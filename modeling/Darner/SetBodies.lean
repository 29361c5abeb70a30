import Darner.ChunkStore
import Darner.ChunkedItems
import Mathlib.Algebra.Order.Floor.Div

/-! The body of a `set`. The loop of `set` and `set_on_read_chunk` cuts the bytes that
follow the line into chunks, whatever pieces they arrive in. The count that `open` is
given, the bytes that each read requires and the test for the last chunk agree for every
size: the body is written in `max(1, ceil(num_bytes / chunk_size_))` writes, the stream
closes with the last of them, and `in_` is left with what follows the terminator. -/

namespace Darner.SetBodies
open OrderedStore LabelledRuns StreamMoves QueueRecovery ChunkLayout CrashConsistency StoredItems
open ReadProgress ServerMoves ServerWaiters FetchDeeds FetchEvents ReliableFetch ServerCalls
open SetProgress ChunkStore ChunkedItems

variable {stream : OQStream} {q : Queue} {chunk : Bytes} {stray : UInt8} {io : Io}

def published (stream : OQStream) (q : Queue) (chunk : Bytes) (stray : UInt8) : Queue :=
  if stream.header.end_ ≤ 1 then (q.pushed (escape chunk stray) stream.sync).wakeUp
  else
    ((withChunk q stream.chunkPos chunk).pushed (stream.advance chunk.length).header.str
      stream.sync).wakeUp

theorem not_stuck (isOpen : stream.queue.isSome) (left : stream.chunkPos < stream.header.end_) :
    ¬(stream.queue.isNone ∨ stream.chunkPos = stream.header.end_) := by
  rintro (closed | finished)
  · rw [Option.isNone_iff_eq_none.mp closed] at isOpen
    cases isOpen
  · omega

theorem write_unfinished (q : Queue) (chunk : Bytes) (stray : UInt8) (clean : ∀ n, io n = true) (isOpen : stream.queue.isSome)
    (more : stream.chunkPos + 1 < stream.header.end_) :
    stream.write q chunk stray io =
      (.ok (), stream.advance chunk.length, withChunk q stream.chunkPos chunk) := by
  have unfinished := not_stuck isOpen (by omega)
  have put : stream.store q chunk stray (io 0) =
      .ok (stream, withChunk q stream.chunkPos chunk) := by
    rw [OQStream.store, if_neg (by omega), clean]
    rfl
  rw [OQStream.write, if_neg unfinished, put]
  simp only
  exact if_neg (Nat.ne_of_lt more)

theorem write_finished (q : Queue) (chunk : Bytes) (stray : UInt8) (clean : ∀ n, io n = true) (isOpen : stream.queue.isSome)
    (last : stream.chunkPos + 1 = stream.header.end_) :
    stream.write q chunk stray io =
      (.ok (), { stream.advance chunk.length with
        id := q.queueHead.id, queue := none }, published stream q chunk stray) := by
  have unfinished := not_stuck isOpen (by omega)
  rw [OQStream.write, if_neg unfinished, published, OQStream.store]
  by_cases single : stream.header.end_ ≤ 1
  · have finished : ({ stream with id := q.queueHead.id }.advance chunk.length).chunkPos =
        ({ stream with id := q.queueHead.id }.advance chunk.length).header.end_ := last
    rw [if_pos single, if_pos single, clean]
    change ({ stream with id := q.queueHead.id }.advance chunk.length).finish
      (q.pushed (escape chunk stray) stream.sync).wakeUp (io 1) = _
    rw [OQStream.finish, if_pos finished, if_neg (by exact Nat.not_lt.mpr single)]
    rfl
  · have finished : (stream.advance chunk.length).chunkPos =
        (stream.advance chunk.length).header.end_ := last
    rw [if_neg single, if_neg single, clean]
    change (stream.advance chunk.length).finish (withChunk q stream.chunkPos chunk) (io 1) = _
    rw [OQStream.finish, if_pos finished, if_pos (by exact Nat.lt_of_not_le single), clean]
    rfl

variable {s s' t : Server} {i n address : ℕ} {env : Env}

theorem objects_storeChunk (isOpen : (s.conn i).pushStream.queue = some address) :
    (s.storeChunk i chunk env).objects = s.objects.set address
      ((s.conn i).pushStream.write (s.object address) chunk env.stray env.io).2.2 := by
  unfold Server.storeChunk
  rw [pushWrite_eq isOpen]
  split
  case h_1 e u result =>
    rw [← (Prod.mk.inj result).2]
    rfl
  case h_2 u result =>
    obtain ⟨-, rfl⟩ := Prod.mk.inj result
    split <;> rfl

/-- What `set_on_read_chunk` does when its journal calls succeed. -/
inductive Handled (i address : ℕ) (env : Env) (s s' : Server) : Prop where
  | refused (last : (s.conn i).req.numBytes - (s.conn i).pushStream.tell ≤ s.chunkSize)
      (ending : ((s.conn i).inBuf.drop
        ((s.conn i).req.numBytes - (s.conn i).pushStream.tell)).take 2 ≠ ascii "\r\n")
      (after : s' = s.error i "bad data chunk" "CLIENT_ERROR")
  | more (large : s.chunkSize < (s.conn i).req.numBytes - (s.conn i).pushStream.tell)
      (room : s.chunkSize ≤ (s.conn i).inBuf.length)
      (conn : s'.conn i =
        { s.conn i with
          inBuf := (s.conn i).inBuf.drop s.chunkSize
          pushStream := (s.conn i).pushStream.advance s.chunkSize
          pending := (s'.conn i).pending })
      (reading : ∃ n, (s'.conn i).pending = .readChunk n)
      (objects : s'.objects = s.objects.set address (withChunk (s.object address)
        (s.conn i).pushStream.chunkPos ((s.conn i).inBuf.take s.chunkSize)))
  | stored (last : (s.conn i).req.numBytes - (s.conn i).pushStream.tell ≤ s.chunkSize)
      (room : (s.conn i).req.numBytes - (s.conn i).pushStream.tell + 2 ≤ (s.conn i).inBuf.length)
      (ending : ((s.conn i).inBuf.drop
        ((s.conn i).req.numBytes - (s.conn i).pushStream.tell)).take 2 = ascii "\r\n")
      (conn : s'.conn i =
        { s.conn i with
          inBuf := (s.conn i).inBuf.drop
            ((s.conn i).req.numBytes - (s.conn i).pushStream.tell + 2)
          pushStream := { (s.conn i).pushStream.advance
              ((s.conn i).req.numBytes - (s.conn i).pushStream.tell) with
            id := (s.object address).queueHead.id, queue := none }
          pending := .write (ascii "STORED\r\n") .readRequest })
      (objects : s'.objects = s.objects.set address (published (s.conn i).pushStream
        (s.object address) ((s.conn i).inBuf.take
          ((s.conn i).req.numBytes - (s.conn i).pushStream.tell)) env.stray))

theorem setOnReadChunk_handled (there : i < s.conns.length)
    (isOpen : (s.conn i).pushStream.queue = some address) (made : address < s.objects.length)
    (clean : ∀ n, env.io n = true) (receiving : Receiving s.chunkSize (s.conn i) n)
    (enough : n = 0 ∨ s.capacity ≤ (s.conn i).inBuf.length) :
    Handled i address env s (s.setOnReadChunk i env) := by
  have filling := receiving.filling
  have told := filling.told_le
  have buffered := receiving.buffered enough
  unfold required at buffered
  dsimp only at buffered
  unfold Server.setOnReadChunk
  dsimp only
  split
  case isTrue last =>
    rw [if_neg (by omega)] at buffered
    split
    case isTrue ending => exact .refused last ending rfl
    case isFalse ending =>
      obtain ⟨t, same, there', conn, objects, -⟩ := consumed ((s.conn i).inBuf.drop
        ((s.conn i).req.numBytes - (s.conn i).pushStream.tell + 2)) there
      rw [same]
      have object : t.object address = s.object address := by
        rw [Server.object, objects, Server.object]
      have push : (t.conn i).pushStream = (s.conn i).pushStream := by rw [conn]
      have full : ((s.conn i).inBuf.take
          ((s.conn i).req.numBytes - (s.conn i).pushStream.tell)).length =
          (s.conn i).req.numBytes - (s.conn i).pushStream.tell := by
        rw [List.length_take]
        omega
      have write := write_finished (s.object address)
        ((s.conn i).inBuf.take ((s.conn i).req.numBytes - (s.conn i).pushStream.tell)) env.stray
        clean receiving.isOpen (filling.last last)
      rw [full] at write
      obtain ⟨conn', -⟩ := storeChunk_stored there' (objects ▸ made) push object isOpen write (by
        rw [conn]
        simp only [OQStream.tell, OQStream.advance] at told ⊢
        omega)
      refine .stored last buffered (not_not.mp ending) (by rw [conn', conn]) ?_
      rw [objects_storeChunk (by rw [push, isOpen]), push, object, write, objects]
  case isFalse large =>
    have large := Nat.lt_of_not_le large
    rw [if_pos large] at buffered
    obtain ⟨t, same, there', conn, objects, size⟩ :=
      consumed ((s.conn i).inBuf.drop s.chunkSize) there
    rw [same]
    have object : t.object address = s.object address := by
      rw [Server.object, objects, Server.object]
    have push : (t.conn i).pushStream = (s.conn i).pushStream := by rw [conn]
    have full : ((s.conn i).inBuf.take s.chunkSize).length = s.chunkSize := by
      rw [List.length_take]
      omega
    have write := write_unfinished (s.object address) ((s.conn i).inBuf.take s.chunkSize)
      env.stray clean receiving.isOpen (filling.more large)
    rw [full] at write
    obtain ⟨m, conn', -⟩ := storeChunk_more there' push object isOpen write (by
      rw [conn]
      simp only [OQStream.tell, OQStream.advance] at large ⊢
      omega) receiving.isOpen (by
      rw [conn, size]
      exact filling.advance large)
    refine .more large buffered ?_ ⟨m, by rw [conn']⟩ ?_
    · rw [conn', conn]
    · rw [objects_storeChunk (by rw [push, isOpen]), push, object, write, objects]

/-! The chunks that a push has written stay as they are, whatever others do. -/

theorem call_contents {io : Io} {deletes : Bytes → Prop} (call : Call i io deletes s s') :
    (∀ a, (s'.object a).contents = (s.object a).contents) ∨
    (∃ erase ok, s.popClose i erase ok = .ok s') ∨
    (∃ env n, env.io = io ∧ (s.conn i).pending = .readChunk n ∧
      s' = s.setOnReadChunk i env) ∨ ∃ ok, s' = s.drop i ok := by
  have fetched : ∀ {a t u io'} {result : Except Error Bytes}, s.popOpen i a = (.ok true, t) →
      t.popRead i io' = (result, u) → ∀ b, (u.object b).contents = (s.object b).contents := by
    intro a t u io' result opened read b
    rcases s.popOpen_cases i a with ⟨-, h⟩ | ⟨-, -, h⟩ | ⟨-, id, q, pop, h⟩
    · cases h.symm.trans opened
    · cases h.symm.trans opened
    · obtain ⟨-, rfl⟩ := Prod.mk.inj (h.symm.trans opened)
      obtain ⟨-, rfl⟩ := Prod.mk.inj read
      exact object_setObject_field Queue.contents (Queue.contents_popBegin pop) b
  cases call with
  | touch => exact .inl fun _ => rfl
  | count stats => exact .inl fun _ => rfl
  | @make name absent unused =>
    refine .inl fun a => ?_
    by_cases new : a = s.objects.length
    · rw [new, Server.object_withQueue_self, Server.object_beyond (le_refl _)]
      rfl
    · rw [Server.object_withQueue_ne s name new]
  | @delete name b free asked found =>
    exact .inl fun a => object_setObject_field Queue.contents
      (congrArg Journal.contents (unseen_destroy (s.object b) s.paths).journal) a
  | fetch free found opened read => exact .inl (fetched opened read)
  | fetchFailed free found opened read => exact .inl fun a => fetched opened read a
  | read io' free => exact .inl fun _ => rfl
  | close n free closed => exact .inr (.inl ⟨_, _, closed⟩)
  | @set b t free found opened =>
    obtain ⟨-, rfl⟩ := pushOpen_ok opened
    exact .inl fun a => object_setObject_field Queue.contents (ChunkStore.contents_oopen ..) a
  | receive data =>
    rcases recv_cases s i data with same | ⟨-, ⟨-, -, same⟩ | ⟨n, -, -, same⟩⟩
    · exact .inl fun _ => by rw [same]
    · exact .inl fun _ => by rw [same]; rfl
    · exact .inl fun _ => by rw [same]; rfl
  | chunk outcome reading enough => exact .inr (.inr (.inl ⟨_, _, outcome, reading, rfl⟩))
  | drop n => exact .inr (.inr (.inr ⟨_, rfl⟩))

theorem fresh_withChunk (fresh : ChunkStore.Fresh q) (m : ℕ) (chunk : Bytes) :
    ChunkStore.Fresh (withChunk q m chunk) := by
  refine ⟨fresh.type, fun mem => fresh.unused ?_⟩
  rw [mem_iff_lookup] at mem ⊢
  rwa [contents_withChunk, Layout.lookup_queue_insert_chunk] at mem

theorem lookup_write (stream : OQStream) (fresh : ChunkStore.Fresh q) (m : ℕ) :
    (stream.write q chunk stray io).2.2.contents.lookup ⟨.chunk, m⟩ =
      q.contents.lookup ⟨.chunk, m⟩ ∨
    stream.header.end_ > 1 ∧ stream.chunkPos ≠ stream.header.end_ ∧ m = stream.chunkPos := by
  have pushed : ∀ {p p' : Queue} {value sync ok id}, ChunkStore.Fresh p →
      p.pushValue value sync ok = .ok (id, p') →
      p'.contents.lookup ⟨.chunk, m⟩ = p.contents.lookup ⟨.chunk, m⟩ := by
    intro p p' value sync ok id fresh push
    rw [contents_pushValue fresh push, Layout.lookup_chunk_insert_queue]
  rcases stream.write_cases q chunk stray io with
    ⟨-, h⟩ | ⟨-, unfinished, ⟨e, -, h⟩ | ⟨stream', q', store, h⟩⟩
  · exact .inl (by rw [h])
  · exact .inl (by rw [h])
  rw [h]
  rcases OQStream.store_ok store with ⟨single, id, push, rfl⟩ | ⟨multi, put, rfl⟩
  · left
    rcases (({ stream with id := id } : OQStream).advance chunk.length).finish_cases q' (io 1) with
      ⟨-, last⟩ | ⟨-, -, last⟩ | ⟨-, multi, -⟩
    · rw [last]
      exact pushed fresh push
    · rw [last]
      exact pushed fresh push
    · exact absurd multi (Nat.not_lt.mpr single)
  · by_cases here : m = stream'.chunkPos
    · exact .inr ⟨multi, unfinished, here⟩
    left
    obtain rfl : q' = withChunk q stream'.chunkPos chunk := Queue.put_ok put
    have stored : (withChunk q stream'.chunkPos chunk).contents.lookup ⟨.chunk, m⟩ =
        q.contents.lookup ⟨.chunk, m⟩ := by
      rw [contents_withChunk, lookup_insert_eq, if_neg (by simpa using here)]
    rcases (stream'.advance chunk.length).finish_cases (withChunk q stream'.chunkPos chunk) (io 1)
      with ⟨-, last⟩ | ⟨-, -, last⟩ | ⟨-, -, ⟨e, last⟩ | ⟨id, q'', push, last⟩⟩
    · rw [last, stored]
    · rw [last, stored]
    · rw [last, stored]
    · rw [last]
      exact (pushed (fresh_withChunk fresh _ _) push).trans stored

theorem objects_setOnReadChunk (env : Env) (there : i < s.conns.length)
    (isOpen : (s.conn i).pushStream.queue = some address) :
    (s.setOnReadChunk i env).objects = s.objects ∨
    ∃ chunk, (s.setOnReadChunk i env).objects = s.objects.set address
      ((s.conn i).pushStream.write (s.object address) chunk env.stray env.io).2.2 := by
  have stored : ∀ rest chunk,
      ((s.setConn i { s.conn i with inBuf := rest }).storeChunk i chunk env).objects =
        s.objects.set address
          ((s.conn i).pushStream.write (s.object address) chunk env.stray env.io).2.2 := by
    intro rest chunk
    have push : ((s.setConn i { s.conn i with inBuf := rest }).conn i).pushStream =
        (s.conn i).pushStream := by rw [Server.conn_setConn_self _ there]
    rw [objects_storeChunk (by rw [push, isOpen]), push]
    rfl
  unfold Server.setOnReadChunk
  dsimp only
  split
  · split
    · exact .inl rfl
    · exact .inr ⟨_, stored _ _⟩
  · exact .inr ⟨_, stored _ _⟩

theorem contents_dropPop (a : ℕ) : ((s.dropPop i).object a).contents = (s.object a).contents := by
  unfold Server.dropPop
  split
  · rfl
  · exact object_setObject_field Queue.contents (contents_destruct _ _) a

theorem lookup_drop {ok : Bool} (steady : Steady s) (there : i < s.conns.length) (a m : ℕ) :
    ((s.drop i ok).object a).contents.lookup ⟨.chunk, m⟩ =
      if ok = true ∧ (s.conn i).pushStream.queue = some a ∧ m ∈ (s.conn i).pushStream.reserved
      then none else (s.object a).contents.lookup ⟨.chunk, m⟩ := by
  have pushed : ((s.drop i ok).object a).contents = ((s.dropPush i ok).object a).contents :=
    contents_dropPop a
  rw [pushed]
  unfold Server.dropPush
  split
  case h_1 closed => rw [if_neg (by simp [closed])]
  case h_2 b isOpen =>
    rw [Server.object_setConn]
    by_cases same : a = b
    case neg =>
      rw [Server.object_setObject_ne s _ same, if_neg]
      rintro ⟨-, here, -⟩
      exact same (Option.some.inj (here.symm.trans isOpen))
    subst same
    rw [Server.object_setObject_self _ (steady.sited.held i a (.inr isOpen)), OQStream.destruct,
      if_pos (by rw [isOpen]; rfl)]
    have layout := (steady.sound a).cons.layout
    have writes := mem_writers there isOpen
    cases ok with
    | false =>
      rw [if_neg (by simp), OQStream.cancel, if_neg (by simp [isOpen])]
      split
      case h_1 closed q' cancel =>
        split at cancel
        · cases cancel
        · obtain ⟨-, rfl⟩ := Prod.mk.inj (Except.ok.inj cancel)
          rfl
      case h_2 => rfl
    | true =>
      cases cancel : (s.conn i).pushStream.cancel (s.object a) true with
      | error e =>
        rw [OQStream.cancel, if_neg (by simp [isOpen])] at cancel
        split at cancel <;> cases cancel
      | ok pair =>
        obtain ⟨closed, q'⟩ := pair
        obtain ⟨-, -, ⟨multi, erase⟩ | ⟨single, rfl⟩⟩ := OQStream.cancel_ok cancel
        · simp only [Queue.lookup_eraseChunks erase, layout.mem_chunkKeys_iff writes multi, isOpen,
            true_and]
        · rw [if_neg]
          rintro ⟨-, -, wrong⟩
          rw [OQStream.reserved_single single] at wrong
          exact absurd wrong (Finset.notMem_empty m)

theorem call_chunk {io : Io} {deletes : Bytes → Prop} (steady : Steady s)
    (there : i < s.conns.length) (call : Call i io deletes s s') (a m : ℕ) :
    (s'.object a).contents.lookup ⟨.chunk, m⟩ = (s.object a).contents.lookup ⟨.chunk, m⟩ ∨
    ((s.conn i).pushStream.queue = some a ∧ m ∈ (s.conn i).pushStream.reserved) ∨
    OfItem (s.object a).contents m := by
  rcases call_contents call with
    same | ⟨erase, ok, closed⟩ | ⟨env, n, -, reading, rfl⟩ | ⟨ok, rfl⟩
  · exact .inl (by rw [same])
  · rcases Server.popClose_ok closed with ⟨-, rfl⟩ | ⟨b, q, isOpen, pop, rfl⟩
    · exact .inl rfl
    rw [Server.object_setConn]
    rcases s.object_setObject_cases b q a with kept | ⟨rfl, set⟩
    · exact .inl (by rw [kept])
    rw [set]
    cases erase with
    | false =>
      rw [Queue.popEnd_return] at pop
      rw [← Except.ok.inj pop, contents_wakeUp]
      exact .inl rfl
    | true =>
      obtain ⟨bytes, ranges, rfl⟩ := Queue.popEnd_erase pop
      have lookup := (s.object a).lookup_erased (s.conn i).popStream.id (s.conn i).popStream.header
        ⟨.chunk, m⟩
      by_cases mem : (⟨.chunk, m⟩ : Key) ∈
          Queue.itemKeys (s.conn i).popStream.id (s.conn i).popStream.header
      · obtain ⟨multi, inside⟩ := (Queue.chunk_mem_itemKeys _ _ _).mp mem
        have layout := (steady.sound a).cons.layout
        have held : ServerMoves.Holds s i a (s.conn i).popStream.id := ⟨isOpen, rfl⟩
        have stored := layout.known _ (mem_readers there held) multi
        exact .inr (.inr ⟨_, _, stored, (layout.header_chunkIds stored).mp inside⟩)
      · rw [if_neg mem] at lookup
        exact .inl lookup
  · have receiving := steady.receives.reading i n reading
    obtain ⟨b, isOpen⟩ := Option.isSome_iff_exists.mp receiving.isOpen
    rcases objects_setOnReadChunk env there isOpen with objects | ⟨chunk, objects⟩
    · exact .inl (by rw [Server.object, objects, Server.object])
    have object : (s.setOnReadChunk i env).object a = (s.setObject b ((s.conn i).pushStream.write
        (s.object b) chunk env.stray env.io).2.2).object a := by
      rw [Server.object, objects]
      rfl
    rw [object]
    rcases s.object_setObject_cases b _ a with kept | ⟨rfl, set⟩
    · exact .inl (by rw [kept])
    rw [set]
    rcases lookup_write (s.conn i).pushStream (steady.fresh a) m with
      same | ⟨multi, unfinished, here⟩
    · exact .inl same
    · refine .inr (.inl ⟨isOpen, ?_⟩)
      rw [OQStream.reserved_multi multi, here]
      exact Finset.mem_Ico.mpr ⟨receiving.filling.start, receiving.filling.stop⟩
  · rw [lookup_drop steady there]
    split
    case isTrue mine => exact .inr (.inl mine.2)
    case isFalse => exact .inl rfl

theorem reserved_apart {j m : ℕ} (steady : Steady s) (ne : j ≠ i)
    (isOpen : (s.conn i).pushStream.queue = some address)
    (isOpen' : (s.conn j).pushStream.queue = some address)
    (inside : m ∈ (s.conn i).pushStream.reserved) : m ∉ (s.conn j).pushStream.reserved := by
  have row : ∀ {k}, (s.conn k).pushStream.queue = some address → s.conns[k]? = some (s.conn k) := by
    intro k isOpen
    apply conn_row
    by_contra beyond
    rw [Server.conn_beyond (by omega)] at isOpen
    cases isOpen
  have apart := (steady.sound address).cons.layout.apart
  obtain ⟨rows, rows'⟩ := List.getElem?_eq_some_iff.mp (row isOpen)
  obtain ⟨rowsj, rowsj'⟩ := List.getElem?_eq_some_iff.mp (row isOpen')
  have pairs := List.pairwise_iff_getElem.mp (List.pairwise_filterMap.mp apart)
  rcases Nat.lt_or_gt_of_ne ne with before | after
  · have disjoint := pairs j i rowsj rows before _ (by rw [rowsj']; exact if_pos isOpen') _
      (by rw [rows']; exact if_pos isOpen)
    exact Finset.disjoint_right.mp disjoint inside
  · have disjoint := pairs i j rows rowsj after _ (by rw [rows']; exact if_pos isOpen) _
      (by rw [rowsj']; exact if_pos isOpen')
    exact Finset.disjoint_left.mp disjoint inside

theorem step_reserved {event : ServerEvent} {m : ℕ} (awake : Awake none s) (steady : Steady s)
    (run : s.Step event s') (bounded : ChunkIdsFit s')
    (isOpen : (s.conn i).pushStream.queue = some address)
    (inside : m ∈ (s.conn i).pushStream.reserved) (other : serving s event ≠ some i) :
    (s'.object address).contents.lookup ⟨.chunk, m⟩ =
      (s.object address).contents.lookup ⟨.chunk, m⟩ := by
  cases step_serves awake run with
  | nothing => rfl
  | accept => rfl
  | expire a node =>
    rw [object_setObject_field (q := (s.object a).expireTimer node) Queue.contents rfl address]
  | @calls j t u _ who there begins calls leaves =>
    have ne : i ≠ j := by
      rintro rfl
      exact other who
    have start : (t.object address).contents = (s.object address).contents := by
      cases begins with
      | ready => rfl
      | @woken a node =>
        exact object_setObject_field (q := ((s.object a).waiterWakeup node).1) Queue.contents rfl
          address
    have stop : (s'.object address).contents = (u.object address).contents := by
      cases leaves with
      | done => rfl
      | @waits a waitMs =>
        exact object_setObject_field (q := (u.object a).wait waitMs j) Queue.contents rfl address
    obtain ⟨-, last⟩ := calls.invariant (P := fun t => ChunkIdsFit t → Steady t ∧ t.conn i = s.conn i ∧
        (t.object address).contents.lookup ⟨.chunk, m⟩ =
          (s.object address).contents.lookup ⟨.chunk, m⟩) (by
        intro t t' there before call bounded
        have before := before fun a => lt_of_le_of_lt (call.chunksHead there a) (bounded a)
        obtain ⟨steady, conn, same⟩ := before
        refine ⟨call_steady t t' there (fun _ => steady) call bounded,
          (call.others there ne).trans conn, ?_⟩
        rcases call_chunk steady there call address m with kept | ⟨isOpen', taken⟩ |
          ⟨id, header, stored, taken⟩
        · rw [kept, same]
        · exact absurd taken (reserved_apart steady (Ne.symm ne) (by rw [conn, isOpen]) isOpen'
            (by rw [conn]; exact inside))
        · have there' : i < t.conns.length := by
            by_contra beyond
            rw [← conn, Server.conn_beyond (by omega)] at isOpen
            cases isOpen
          have clear := (steady.sound address).cons.layout.clear _
            (mem_writers there' (by rw [conn, isOpen])) stored
          rw [conn] at clear
          exact absurd taken (Finset.disjoint_left.mp clear inside))
      (begins.conns ▸ there) fun _ =>
        ⟨Begins.steady begins steady, Server.conn_congr begins.conns i, by rw [start]⟩
    rw [stop]
    exact (last (Leaves.bounded leaves bounded)).2.2

/-! A push stream is open only in the middle of a `set`, or when its connection is about
to end. -/

def Shut (s : Server) : Prop := ∀ j, Free (s.conn j) → (s.conn j).pushStream.queue = none

theorem call_shut {io : Io} {deletes : Bytes → Prop} (steady : Steady s)
    (there : i < s.conns.length) (shut : Free (s.conn i) → (s.conn i).pushStream.queue = none)
    (call : Call i io deletes s s') (free : Free (s'.conn i)) :
    (s'.conn i).pushStream.queue = none := by
  cases call with
  | touch pop push free' =>
    rw [Server.conn_setConn_self _ there, push]
    exact shut free'
  | count stats => exact shut free
  | make => exact shut free
  | delete free' => exact shut free'
  | fetch free' found opened read =>
    obtain ⟨-, stream, conn⟩ := conn_fetch there opened read
    rw [conn]
    exact shut free'
  | fetchFailed free' found opened read =>
    obtain ⟨there', -⟩ := conn_fetch there opened read
    rw [Server.serverError, conn_reply there'] at free
    exact absurd rfl (free.1 _)
  | read io' free' =>
    obtain ⟨-, stream, conn⟩ := conn_popRead there io'
    rw [conn]
    exact shut free'
  | close n free' closed =>
    obtain ⟨-, stream, conn⟩ := conn_popClose there closed
    rw [conn]
    exact shut free'
  | set free' found opened =>
    obtain ⟨-, rfl⟩ := pushOpen_ok opened
    rw [conn_readNextChunk (lt_of_lt_of_eq there List.length_set.symm)] at free
    exact absurd rfl (free.2 _)
  | receive data =>
    rcases recv_cases s i data with same | ⟨-, ⟨reading, -, same⟩ | ⟨n, -, reading, same⟩⟩
    · rw [same] at free ⊢
      exact shut free
    · rw [same, Server.conn_setConn_self _ there]
      exact shut (by simp [Free, reading])
    · rw [same, Server.conn_setConn_self _ there] at free
      exact absurd rfl (free.2 _)
  | @chunk env n outcome reading enough =>
    have took : Took i env s (s.setOnReadChunk i env) := setOnReadChunk_took there
      (fun a isOpen => steady.sited.held i a (.inr isOpen)) (steady.receives.reading i n reading)
      enough
    cases took with
    | failed conn =>
      rw [conn] at free
      exact absurd rfl (free.1 _)
    | more conn =>
      rw [conn] at free
      exact absurd rfl (free.2 _)
    | stored isOpen conn last ending tell stop published =>
      rw [conn]
      exact published.closed
  | drop n => rw [conn_drop there]

theorem step_shut {event : ServerEvent} (awake : Awake none s) (steady : Steady s) (shut : Shut s)
    (run : s.Step event s') (bounded : ChunkIdsFit s') : Shut s' := by
  cases step_serves awake run with
  | nothing => exact shut
  | accept =>
    intro j free
    rcases conn_accept s _ j with same | new
    · rw [same] at free ⊢
      exact shut j free
    · rw [new]
  | expire a node => exact shut
  | @calls i t u _ who there begins calls leaves =>
    obtain ⟨there', last⟩ := calls.invariant (P := fun t => ChunkIdsFit t → Steady t ∧ Shut t) (by
        intro t t' there before call bounded
        have before := before fun a => lt_of_le_of_lt (call.chunksHead there a) (bounded a)
        obtain ⟨steady, shut⟩ := before
        refine ⟨call_steady t t' there (fun _ => steady) call bounded, fun j free => ?_⟩
        by_cases same : j = i
        · subst same
          exact call_shut steady there (shut j) call free
        · rw [call.others there same] at free ⊢
          exact shut j free)
      (begins.conns ▸ there) fun _ => by
        refine ⟨Begins.steady begins steady, fun j => ?_⟩
        rw [Server.conn_congr begins.conns j]
        exact shut j
    have shut' := (last (Leaves.bounded leaves bounded)).2
    cases leaves with
    | done => exact shut'
    | waits found closed empty free =>
      intro j
      rw [conn_waits there']
      split
      case isTrue => exact fun _ => shut' i free
      case isFalse => exact shut' j

theorem reachable_shut {chunkSize : ℕ} {dataPath : Bytes} (pos : 0 < chunkSize)
    (reach : Reachable Life (.empty chunkSize dataPath) s) : Shut s := by
  have started := Server.started_empty chunkSize dataPath pos
  have closed : ∀ {u : Server}, u.Started → Shut u := by
    intro u started j free
    rw [started.closed j]
  have steady := steady_started started fun q mem => by cases mem
  refine (reach.invariant (P := fun s => (Awake none s ∧ Steady s) ∧ Shut s)
    ⟨⟨awake_started started, steady⟩, closed started⟩ ?_).2
  rintro t turn t' ⟨both, shut⟩ life
  refine ⟨life_steady t turn t' both life, ?_⟩
  cases life with
  | event step fits => exact step_shut both.1 both.2 shut step fits.chunks
  | restart again => exact closed again.started

/-! The loop, as it is seen from the socket and from the push stream. -/

/-- What connection `i` has done since its `set` line: the bytes that came in, the calls of
`set_on_read_chunk`, the chunks passed to `push_stream_.write`, and the queue entries that
its events added, each with the address of its queue. -/
structure Loop where
  input : Bytes
  reads : ℕ := 0
  writes : List Bytes := []
  added : Set (ℕ × ℕ) := ∅

def passed (chunkSize : ℕ) (h : Handler) : Option Bytes :=
  let remaining := h.req.numBytes - h.pushStream.tell
  if remaining ≤ chunkSize then
    if (h.inBuf.drop remaining).take 2 ≠ ascii "\r\n" then none else some (h.inBuf.take remaining)
  else some (h.inBuf.take chunkSize)

theorem setOnReadChunk_passed (env : Env) : s.setOnReadChunk i env =
    match passed s.chunkSize (s.conn i) with
    | none => s.error i "bad data chunk" "CLIENT_ERROR"
    | some chunk =>
      let remaining := (s.conn i).req.numBytes - (s.conn i).pushStream.tell
      (s.setConn i { s.conn i with
        inBuf := (s.conn i).inBuf.drop
          (if remaining ≤ s.chunkSize then remaining + 2 else s.chunkSize) }).storeChunk i chunk
        env := by
  unfold Server.setOnReadChunk passed
  dsimp only
  split
  · split
    · rfl
    · rfl
  · rfl

def callsBack (i : ℕ) (s : Server) : ServerEvent → Bool
  | .readDone j _ =>
    j = i && match (s.conn i).pending with
      | .readChunk n => n = 0 || s.capacity ≤ (s.conn i).inBuf.length
      | _ => false
  | _ => false

def arrived (i : ℕ) (s s' : Server) : ServerEvent → Bytes
  | .recv j _ => if j = i then (s'.conn i).inBuf.drop (s.conn i).inBuf.length else []
  | _ => []

def newEntries (s s' : Server) : Set (ℕ × ℕ) :=
  {entry | (⟨.queue, entry.2⟩ : Key) ∈ (s'.object entry.1).contents ∧
    (⟨.queue, entry.2⟩ : Key) ∉ (s.object entry.1).contents}

def Loop.next (i : ℕ) (loop : Loop) (s : Server) (event : ServerEvent) (s' : Server) : Loop where
  input := loop.input ++ arrived i s s' event
  reads := if callsBack i s event then loop.reads + 1 else loop.reads
  writes :=
    if callsBack i s event then loop.writes ++ (passed s.chunkSize (s.conn i)).toList
    else loop.writes
  added := if serving s event = some i then loop.added ∪ newEntries s s' else loop.added

/-- An event while connection `i` waits for the bytes of its body. The journal calls of the
connection succeed and its client stays. -/
structure Watched (i : ℕ) (p : Server × Loop) (event : ServerEvent) (p' : Server × Loop) :
    Prop where
  reading : ∃ n, (p.1.conn i).pending = .readChunk n
  life : Life p.1 (.event event) p'.1
  clean : serving p.1 event = some i → ∀ n, outcomes event n = true
  stays : ∀ env, event ≠ .readFailed i env
  next : p'.2 = p.2.next i p.1 event p'.1

variable {loop : Loop} {event : ServerEvent} {size : ℕ}

theorem newEntries_same (same : ∀ a id, (s'.object a).contents.lookup ⟨.queue, id⟩ =
    (s.object a).contents.lookup ⟨.queue, id⟩) : newEntries s s' = ∅ := by
  refine Set.eq_empty_of_forall_notMem ?_
  rintro ⟨a, id⟩ ⟨new, old⟩
  rw [mem_iff_lookup] at new old
  exact old (same a id ▸ new)

theorem Loop.next_idle (idle : callsBack i s event = false)
    (entries : serving s event = some i → newEntries s s' = ∅) :
    loop.next i s event s' = { loop with input := loop.input ++ arrived i s s' event } := by
  have added : (if serving s event = some i then loop.added ∪ newEntries s s' else loop.added) =
      loop.added := by
    split
    case isTrue mine => rw [entries mine, Set.union_empty]
    case isFalse => rfl
  unfold Loop.next
  rw [idle, added]
  rfl

theorem Loop.next_other (other : serving s event ≠ some i) : loop.next i s event s' = loop := by
  have idle : callsBack i s event = false := by
    cases event with
    | readDone j env =>
      have ne : j ≠ i := fun same => other (congrArg some same)
      simp [callsBack, ne]
    | _ => rfl
  have input : arrived i s s' event = [] := by
    cases event with
    | recv j data => exact if_neg fun same => other (congrArg some same)
    | _ => rfl
  rw [Loop.next_idle idle fun mine => absurd mine other, input, List.append_nil]

/-! The states of the loop. -/

inductive Item (q : Queue) (id : ℕ) (writes : List Bytes) : Prop where
  | single {chunk : Bytes} {stray : UInt8} (one : writes = [chunk])
      (entry : q.contents.lookup ⟨.queue, id⟩ = some (escape chunk stray))
  | multi {header : Header} (stores : Stores q id header writes)
      (size : header.size = writes.flatten.length)

structure Underway (i address size : ℕ) (s : Server) (loop : Loop) : Prop where
  reading : ∃ n, (s.conn i).pending = .readChunk n
  numBytes : (s.conn i).req.numBytes = size
  isOpen : (s.conn i).pushStream.queue = some address
  reads : loop.reads = loop.writes.length
  full : ∀ chunk ∈ loop.writes, chunk.length = s.chunkSize
  split : loop.input = loop.writes.flatten ++ (s.conn i).inBuf
  chunkPos : (s.conn i).pushStream.chunkPos =
    (s.conn i).pushStream.header.beg + loop.writes.length
  kept : (s.conn i).pushStream.header.end_ > 1 →
    Chunks (s.object address).contents (s.conn i).pushStream.header.beg loop.writes
  added : loop.added = ∅

/-- The loop goes on: it has not made all its writes, and once the body and its terminator
are there it waits for nothing but its own callback. -/
structure Looping (i address size : ℕ) (s : Server) (loop : Loop) : Prop
    extends Underway i address size s loop where
  few : loop.writes.length < max 1 (size ⌈/⌉ s.chunkSize)
  tell : (s.conn i).pushStream.tell = loop.writes.flatten.length
  unfinished : (s.conn i).pushStream.chunkPos < (s.conn i).pushStream.header.end_
  untold : loop.writes ≠ [] → (s.conn i).pushStream.tell ≠ size
  complete : size + 2 ≤ loop.input.length → (s.conn i).pending = .readChunk 0

structure StoredBody (i address size : ℕ) (s : Server) (loop : Loop) : Prop where
  answer : (s.conn i).pending = .write (ascii "STORED\r\n") .readRequest
  reads : loop.reads = loop.writes.length
  count : loop.writes.length = max 1 (size ⌈/⌉ s.chunkSize)
  full : ∀ chunk ∈ loop.writes.dropLast, chunk.length = s.chunkSize
  body : loop.writes.flatten = loop.input.take size
  ending : (loop.input.drop size).take 2 = ascii "\r\n"
  rest : (s.conn i).inBuf = loop.input.drop (size + 2)
  closed : (s.conn i).pushStream.queue = none
  tell : (s.conn i).pushStream.tell = size
  finished : (s.conn i).pushStream.chunkPos = (s.conn i).pushStream.header.end_
  added : loop.added = {(address, (s.conn i).pushStream.id)}
  item : Item (s.object address) (s.conn i).pushStream.id loop.writes

def Cleans (i : ℕ) (h : Handler) (u : Server) : Prop :=
  ∀ event u', u.conn i = h → Life u (.event event) u' → (∀ n, outcomes event n = true) →
    (u'.conn i).pending = .closed →
    ∀ a n, Pushed a h.pushStream n → (⟨.chunk, n⟩ : Key) ∉ (u'.object a).contents

structure Refused (i address size : ℕ) (s : Server) (loop : Loop) : Prop where
  answer : (s.conn i).pending = .write (ascii "CLIENT_ERROR bad data chunk\r\n") .hangUp
  reads : loop.reads = loop.writes.length + 1
  count : loop.reads = max 1 (size ⌈/⌉ s.chunkSize)
  enough : size + 2 ≤ loop.input.length
  ending : (loop.input.drop size).take 2 ≠ ascii "\r\n"
  added : loop.added = ∅
  written : ∀ n < loop.writes.length,
    Pushed address (s.conn i).pushStream ((s.conn i).pushStream.header.beg + n)
  dropped : ∀ u, Reachable Life s u → Cleans i (s.conn i) u

theorem Filling.count {chunkSize : ℕ} (filling : Filling chunkSize size stream)
    (pos : 0 < chunkSize) :
    stream.header.end_ - stream.header.beg = max 1 (size ⌈/⌉ chunkSize) := by
  have start := filling.start
  have stop := filling.stop
  have most := filling.most
  rw [mul_comm, ← ceilDiv_le_iff_le_mul pos] at most
  rcases filling.least with single | less
  · omega
  · have above : stream.header.end_ - stream.header.beg - 1 < size ⌈/⌉ chunkSize := by
      rwa [lt_iff_not_ge, ceilDiv_le_iff_le_mul pos, mul_comm, not_le]
    omega

theorem length_flatten_full {chunkSize : ℕ} {chunks : List Bytes}
    (full : ∀ chunk ∈ chunks, chunk.length = chunkSize) :
    chunks.flatten.length = chunks.length * chunkSize := by
  rw [List.length_flatten, List.map_eq_replicate_iff.mpr full, List.sum_replicate, smul_eq_mul]

theorem Underway.receiving (underway : Underway i address size s loop) (steady : Steady s) :
    ∃ n, (s.conn i).pending = .readChunk n ∧ Receiving s.chunkSize (s.conn i) n := by
  obtain ⟨n, reading⟩ := underway.reading
  exact ⟨n, reading, steady.receives.reading i n reading⟩

theorem Underway.tell (underway : Underway i address size s loop) (steady : Steady s) :
    (s.conn i).pushStream.tell = loop.writes.flatten.length := by
  obtain ⟨n, -, receiving⟩ := underway.receiving steady
  rw [receiving.filling.told, underway.chunkPos, Nat.add_sub_cancel_left,
    length_flatten_full underway.full]

theorem Underway.looping (underway : Underway i address size s loop) (steady : Steady s) :
    Looping i address size s loop := by
  obtain ⟨n, reading, receiving⟩ := underway.receiving steady
  have filling := receiving.filling
  have tell := underway.tell steady
  have count := Filling.count filling steady.receives.pos
  have chunkPos := underway.chunkPos
  have stop := filling.stop
  rw [underway.numBytes] at count
  refine ⟨underway, by omega, tell, stop, fun some => ?_, fun all => ?_⟩
  · -- a chunk is written and another one is to come, so the item has several
    have some := List.length_pos_iff.mpr some
    rcases filling.least with single | less
    · omega
    · have below := Nat.mul_le_mul_right s.chunkSize (show
        (s.conn i).pushStream.chunkPos - (s.conn i).pushStream.header.beg ≤
          (s.conn i).pushStream.header.end_ - (s.conn i).pushStream.header.beg - 1 by omega)
      rw [← filling.told] at below
      rw [underway.numBytes] at less
      omega
  · have missing := receiving.missing
    have length := congrArg List.length underway.split
    rw [List.length_append, ← tell] at length
    unfold required at missing
    dsimp only at missing
    rw [underway.numBytes] at missing
    have told := filling.told_le
    rw [underway.numBytes] at told
    rw [reading, missing]
    split <;> congr 1 <;> omega

/-! One event. -/

theorem Underway.other (underway : Underway i address size s loop) (awake : Awake none s)
    (steady : Steady s) (run : s.Step event s') (bounded : ChunkIdsFit s')
    (other : serving s event ≠ some i) :
    Underway i address size s' (loop.next i s event s') := by
  obtain ⟨n, reading⟩ := underway.reading
  have conn := step_others awake run (Server.conn_there (by simp [reading])) other
  have chunkSize := step_chunkSize awake run
  rw [Loop.next_other other]
  refine ⟨by rw [conn]; exact underway.reading, by rw [conn, underway.numBytes],
    by rw [conn, underway.isOpen], underway.reads, by rw [chunkSize]; exact underway.full,
    by rw [conn]; exact underway.split, by rw [conn]; exact underway.chunkPos, ?_, underway.added⟩
  intro multi m chunk written
  rw [conn] at multi ⊢
  obtain ⟨k, -, receiving⟩ := underway.receiving steady
  have chunkPos := underway.chunkPos
  have stop := receiving.filling.stop
  have bound := (List.getElem?_eq_some_iff.mp written).1
  have inside : (s.conn i).pushStream.header.beg + m ∈ (s.conn i).pushStream.reserved := by
    rw [OQStream.reserved_multi multi]
    exact Finset.mem_Ico.mpr ⟨by omega, by omega⟩
  rw [step_reserved awake steady run bounded underway.isOpen inside other]
  exact underway.kept multi m chunk written

theorem callsBack_chunk (reading : (s.conn i).pending = .readChunk n)
    (enough : n = 0 ∨ s.capacity ≤ (s.conn i).inBuf.length) :
    callsBack i s (.readDone i env) = true := by
  simp [callsBack, reading, enough]

theorem Loop.next_nothing (reading : (s.conn i).pending = .readChunk n)
    (early : ∀ env, event = .readDone i env → ¬(n = 0 ∨ s.capacity ≤ (s.conn i).inBuf.length)) :
    loop.next i s event s = loop := by
  have idle : callsBack i s event = false := by
    cases event with
    | readDone j env =>
      by_cases same : j = i
      · subst same
        simpa [callsBack, reading] using early env rfl
      · simp [callsBack, same]
    | _ => rfl
  have input : arrived i s s event = [] := by
    cases event with
    | recv j data => simp [arrived]
    | _ => rfl
  rw [Loop.next_idle idle fun _ => newEntries_same fun _ _ => rfl, input, List.append_nil]

theorem Loop.next_chunk (reading : (s.conn i).pending = .readChunk n)
    (enough : n = 0 ∨ s.capacity ≤ (s.conn i).inBuf.length) :
    loop.next i s (.readDone i env) s' =
      { input := loop.input, reads := loop.reads + 1
        writes := loop.writes ++ (passed s.chunkSize (s.conn i)).toList
        added := loop.added ∪ newEntries s s' } := by
  have back : callsBack i s (.readDone i env) = true := callsBack_chunk reading enough
  have input : arrived i s s' (.readDone i env) = [] := rfl
  unfold Loop.next
  rw [back, if_pos (by rfl : serving s (.readDone i env) = some i), input, List.append_nil]
  rfl

theorem Underway.bytes {data : Bytes} (underway : Underway i address size s loop)
    (there : i < s.conns.length) (after : s' = s.setConn i { s.conn i with
      inBuf := (s.conn i).inBuf ++ data, pending := .readChunk n }) :
    Underway i address size s' (loop.next i s (.recv i data) s') := by
  have conn : s'.conn i =
      { s.conn i with inBuf := (s.conn i).inBuf ++ data, pending := .readChunk n } := by
    rw [after, Server.conn_setConn_self _ there]
  have input : arrived i s s' (.recv i data) = data := by
    rw [arrived, if_pos rfl, conn, List.drop_left]
  have object : ∀ a, s'.object a = s.object a := fun a => by rw [after, Server.object_setConn]
  rw [Loop.next_idle rfl fun _ => newEntries_same fun a id => by rw [object], input]
  refine
    { reading := ⟨n, by rw [conn]⟩
      numBytes := by rw [conn]; exact underway.numBytes
      isOpen := by rw [conn]; exact underway.isOpen
      reads := underway.reads
      full := by rw [after]; exact underway.full
      split := ?_
      chunkPos := by rw [conn]; exact underway.chunkPos
      kept := by rw [conn, object]; exact underway.kept
      added := underway.added }
  rw [conn]
  simp only
  rw [underway.split, List.append_assoc]

theorem contents_published (stream : OQStream) (chunk : Bytes) (stray : UInt8)
    (fresh : ChunkStore.Fresh q) :
    (published stream q chunk stray).contents =
      if stream.header.end_ ≤ 1 then
        q.contents.insert ⟨.queue, q.queueHead.id⟩ (escape chunk stray)
      else (q.contents.insert ⟨.chunk, stream.chunkPos⟩ chunk).insert ⟨.queue, q.queueHead.id⟩
        (stream.advance chunk.length).header.str := by
  unfold published
  split
  · exact contents_pushed fresh.type _ _
  · have type := (fresh_withChunk fresh stream.chunkPos chunk).type
    rw [contents_pushed type, contents_withChunk]
    rfl

theorem object_of_objects {q : Queue} (made : address < s.objects.length)
    (objects : s'.objects = s.objects.set address q) (a : ℕ) :
    s'.object a = if a = address then q else s.object a := by
  have same : s'.object a = (s.setObject address q).object a := by
    rw [Server.object, objects]
    rfl
  rw [same]
  split
  case isTrue here =>
    rw [here, Server.object_setObject_self q made]
  case isFalse away => exact Server.object_setObject_ne s q away

theorem Looping.drop (looping : Looping i address size s loop)
    (told : (s.conn i).pushStream.tell ≤ size) (k : ℕ) :
    loop.input.drop (size + k) =
      (s.conn i).inBuf.drop (size - (s.conn i).pushStream.tell + k) := by
  have tell := looping.tell
  rw [looping.split, List.drop_append, List.drop_eq_nil_of_le (by omega), List.nil_append]
  congr 1
  omega

structure Last (i size : ℕ) (s : Server) (loop : Loop) : Prop where
  told : (s.conn i).pushStream.tell ≤ size
  buffered : size + 2 ≤ loop.input.length
  chunkPos : (s.conn i).pushStream.chunkPos + 1 = (s.conn i).pushStream.header.end_
  count : loop.writes.length + 1 = max 1 (size ⌈/⌉ s.chunkSize)

theorem Looping.last (looping : Looping i address size s loop) (steady : Steady s)
    (reading : (s.conn i).pending = .readChunk n)
    (enough : n = 0 ∨ s.capacity ≤ (s.conn i).inBuf.length)
    (last : size - (s.conn i).pushStream.tell ≤ s.chunkSize) : Last i size s loop := by
  have receiving := steady.receives.reading i n reading
  have filling := receiving.filling
  rw [looping.numBytes] at filling
  have told := filling.told_le
  have count := Filling.count filling steady.receives.pos
  have reached := filling.last last
  have chunkPos := looping.chunkPos
  have length := congrArg List.length looping.split
  rw [List.length_append, ← looping.tell] at length
  have buffered := receiving.buffered enough
  unfold required at buffered
  dsimp only at buffered
  rw [looping.numBytes, if_neg (by omega)] at buffered
  exact ⟨told, by omega, reached, by omega⟩

theorem Refused.not_stored (refused : Refused i address size s loop) {text : Bytes} :
    (s.conn i).pending ≠ .write text .readRequest := by
  intro answer
  have next := (Pending.write.inj (refused.answer.symm.trans answer)).2
  cases next

theorem conn_badChunk (there : i < s.conns.length) :
    (s.error i "bad data chunk" "CLIENT_ERROR").conn i = { s.conn i with
      pending := .write (ascii "CLIENT_ERROR bad data chunk\r\n") .hangUp } := by
  rw [Server.error, conn_reply there]
  rfl

theorem Looping.refused (looping : Looping i address size s loop) (steady : Steady s)
    (there : i < s.conns.length) (reading : (s.conn i).pending = .readChunk n)
    (enough : n = 0 ∨ s.capacity ≤ (s.conn i).inBuf.length)
    (small : size - (s.conn i).pushStream.tell ≤ s.chunkSize)
    (ending : ((s.conn i).inBuf.drop (size - (s.conn i).pushStream.tell)).take 2 ≠ ascii "\r\n")
    (after : s' = s.error i "bad data chunk" "CLIENT_ERROR")
    (dropped : ∀ u, Reachable Life s' u → Cleans i (s'.conn i) u) :
    Refused i address size s' (loop.next i s (.readDone i env) s') := by
  have last := looping.last steady reading enough small
  have reads := looping.reads
  have count := last.count
  have none : passed s.chunkSize (s.conn i) = none := by
    simp only [passed, looping.numBytes]
    rw [if_pos small, if_pos ending]
  have conn : s'.conn i = { s.conn i with
      pending := .write (ascii "CLIENT_ERROR bad data chunk\r\n") .hangUp } := by
    rw [after, conn_badChunk there]
  have chunkSize : s'.chunkSize = s.chunkSize := by
    rw [after]
    rfl
  rw [Loop.next_chunk reading enough, none, newEntries_same fun a id => by rw [after]; rfl]
  refine
    { answer := by rw [conn]
      reads := by simp [reads]
      count := by rw [chunkSize]; simp only; omega
      enough := last.buffered
      ending := ?_
      added := by simp only [looping.added, Set.union_empty]
      written := fun m below => ?_
      dropped := dropped }
  · have rest := looping.drop last.told 0
    simp only [Nat.add_zero] at rest ⊢
    rw [rest]
    exact ending
  · simp only [Option.toList_none, List.append_nil] at below
    have chunkPos := looping.chunkPos
    have stop := last.chunkPos
    rw [conn]
    exact ⟨looping.isOpen, by simp only; omega,
      Finset.mem_Ico.mpr ⟨by simp only; omega, by simp only; omega⟩⟩

theorem Looping.more (looping : Looping i address size s loop) (made : address < s.objects.length)
    (reading : (s.conn i).pending = .readChunk n)
    (enough : n = 0 ∨ s.capacity ≤ (s.conn i).inBuf.length)
    (large : s.chunkSize < size - (s.conn i).pushStream.tell)
    (room : s.chunkSize ≤ (s.conn i).inBuf.length)
    (conn : s'.conn i = { s.conn i with
      inBuf := (s.conn i).inBuf.drop s.chunkSize
      pushStream := (s.conn i).pushStream.advance s.chunkSize
      pending := (s'.conn i).pending })
    (reading' : ∃ n, (s'.conn i).pending = .readChunk n)
    (chunkSize : s'.chunkSize = s.chunkSize)
    (objects : s'.objects = s.objects.set address (withChunk (s.object address)
      (s.conn i).pushStream.chunkPos ((s.conn i).inBuf.take s.chunkSize))) :
    Underway i address size s' (loop.next i s (.readDone i env) s') := by
  have object := object_of_objects made objects
  have some : passed s.chunkSize (s.conn i) = some ((s.conn i).inBuf.take s.chunkSize) := by
    simp only [passed, looping.numBytes]
    rw [if_neg (by omega)]
  have same : newEntries s s' = ∅ := by
    refine newEntries_same fun a id => ?_
    rw [object]
    split
    case isTrue here =>
      rw [here, contents_withChunk, Layout.lookup_queue_insert_chunk]
    case isFalse => rfl
  have push : (s'.conn i).pushStream = (s.conn i).pushStream.advance s.chunkSize := by rw [conn]
  rw [Loop.next_chunk reading enough, some, same]
  refine
    { reading := reading'
      numBytes := by rw [conn]; exact looping.numBytes
      isOpen := by rw [push]; exact looping.isOpen
      reads := by simp [looping.reads]
      full := ?_
      split := ?_
      chunkPos := ?_
      kept := fun multi => ?_
      added := by simp only [looping.added, Set.union_empty] }
  · rw [chunkSize]
    simp only [Option.toList_some, List.mem_append, List.mem_singleton]
    rintro chunk (old | rfl)
    · exact looping.full chunk old
    · rw [List.length_take]
      omega
  · rw [conn]
    simp only [Option.toList_some, List.flatten_append, List.flatten_singleton, List.append_assoc,
      List.take_append_drop]
    exact looping.split
  · rw [push]
    simp only [OQStream.advance, looping.chunkPos, Option.toList_some, List.length_append,
      List.length_singleton, Nat.add_assoc]
  · rw [push] at multi ⊢
    have kept := (looping.kept multi).snoc ((s.conn i).inBuf.take s.chunkSize)
    rw [← looping.chunkPos, ← contents_withChunk] at kept
    rw [object, if_pos rfl]
    exact kept

theorem newEntries_published (made : address < s.objects.length)
    (fresh : ChunkStore.Fresh (s.object address))
    (objects : s'.objects = s.objects.set address (published stream (s.object address) chunk stray)) :
    newEntries s s' = {(address, (s.object address).queueHead.id)} := by
  have object := object_of_objects made objects
  have lookup : ∀ id, (published stream (s.object address) chunk stray).contents.lookup
      ⟨.queue, id⟩ = (if stream.header.end_ ≤ 1 then (s.object address).contents.insert
        ⟨.queue, (s.object address).queueHead.id⟩ (escape chunk stray)
      else (s.object address).contents.insert ⟨.queue, (s.object address).queueHead.id⟩
        (stream.advance chunk.length).header.str).lookup ⟨.queue, id⟩ := by
    intro id
    rw [contents_published _ _ _ fresh]
    split
    · rfl
    · simp only [lookup_insert_eq, Key.mk.injEq, reduceCtorEq, false_and, if_false]
  ext ⟨a, id⟩
  rw [Set.mem_singleton_iff, Prod.mk.injEq]
  simp only [newEntries, Set.mem_ofPred_eq, object, mem_iff_lookup]
  constructor
  · rintro ⟨new, old⟩
    split at new
    case isFalse => exact absurd new old
    case isTrue here =>
      refine ⟨here, ?_⟩
      by_contra ne
      rw [lookup] at new
      rw [here] at old
      refine old ?_
      split at new <;> rwa [lookup_insert_eq, if_neg (by simpa using ne)] at new
  · rintro ⟨rfl, rfl⟩
    refine ⟨?_, fun old => fresh.unused (mem_iff_lookup.mpr old)⟩
    rw [if_pos rfl, lookup]
    split <;> exact ⟨_, by rw [lookup_insert_eq, if_pos rfl]⟩

theorem Looping.item (looping : Looping i address size s loop) (steady : Steady s)
    (last : Last i size s loop) (there : i < s.conns.length) (chunk : Bytes) (stray : UInt8)
    (full : (s.conn i).pushStream.tell + chunk.length = size) :
    Item (published (s.conn i).pushStream (s.object address) chunk stray)
      (s.object address).queueHead.id (loop.writes ++ [chunk]) := by
  have contents := contents_published (s.conn i).pushStream chunk stray (steady.fresh address)
  have chunkPos := looping.chunkPos
  have stop := last.chunkPos
  by_cases single : (s.conn i).pushStream.header.end_ ≤ 1
  · rw [if_pos single] at contents
    have none : loop.writes = [] := List.length_eq_zero_iff.mp (by omega)
    have entry : (published (s.conn i).pushStream (s.object address) chunk stray).contents.lookup
        ⟨.queue, (s.object address).queueHead.id⟩ = some (escape chunk stray) := by
      rw [contents, lookup_insert_eq, if_pos rfl]
    exact .single (by rw [none]; rfl) entry
  · rw [if_neg single] at contents
    have layout := (steady.sound address).cons.layout
    have own := layout.unfinished _ (mem_writers there looping.isOpen) (Nat.lt_of_not_le single)
    have several := own.several
    have reserved := own.reserved
    have small := layout.small
    have word : (2 : ℕ) ^ 32 < wordSize := by decide
    have bound := (steady.proper i).size
    have tell := looping.tell
    rw [looping.numBytes] at bound
    rw [OQStream.tell] at full tell
    have stores : Stores (published (s.conn i).pushStream (s.object address) chunk stray)
        (s.object address).queueHead.id ((s.conn i).pushStream.advance chunk.length).header
        (loop.writes ++ [chunk]) := by
      refine
        { fits := ⟨by simp only [OQStream.advance]; omega, by simp only [OQStream.advance]; omega,
            by simp only [OQStream.advance]; omega⟩
          several := by simp only [List.length_append, List.length_singleton]; omega
          count := by
            simp only [OQStream.advance, List.length_append, List.length_singleton]
            omega
          entry := by rw [contents, lookup_insert_eq, if_pos rfl]
          chunks := ?_ }
      intro m written found
      have kept := (looping.kept (Nat.lt_of_not_le single)).snoc chunk m written found
      rw [← chunkPos] at kept
      rw [contents, Layout.lookup_chunk_insert_queue]
      exact kept
    refine .multi stores ?_
    · simp only [OQStream.advance, List.flatten_append, List.flatten_singleton,
        List.length_append]
      omega

theorem Looping.stored (looping : Looping i address size s loop) (steady : Steady s)
    (there : i < s.conns.length) (made : address < s.objects.length)
    (reading : (s.conn i).pending = .readChunk n)
    (enough : n = 0 ∨ s.capacity ≤ (s.conn i).inBuf.length)
    (small : size - (s.conn i).pushStream.tell ≤ s.chunkSize)
    (room : size - (s.conn i).pushStream.tell + 2 ≤ (s.conn i).inBuf.length)
    (ending : ((s.conn i).inBuf.drop (size - (s.conn i).pushStream.tell)).take 2 = ascii "\r\n")
    (conn : s'.conn i = { s.conn i with
      inBuf := (s.conn i).inBuf.drop (size - (s.conn i).pushStream.tell + 2)
      pushStream := { (s.conn i).pushStream.advance (size - (s.conn i).pushStream.tell) with
        id := (s.object address).queueHead.id, queue := none }
      pending := .write (ascii "STORED\r\n") .readRequest })
    (chunkSize : s'.chunkSize = s.chunkSize)
    (objects : s'.objects = s.objects.set address (published (s.conn i).pushStream
      (s.object address) ((s.conn i).inBuf.take (size - (s.conn i).pushStream.tell)) env.stray)) :
    StoredBody i address size s' (loop.next i s (.readDone i env) s') := by
  have last := looping.last steady reading enough small
  have told := last.told
  have tell := looping.tell
  have some : passed s.chunkSize (s.conn i) =
      some ((s.conn i).inBuf.take (size - (s.conn i).pushStream.tell)) := by
    simp only [passed, looping.numBytes]
    rw [if_pos small, if_neg (not_not.mpr ending)]
  have full : ((s.conn i).inBuf.take (size - (s.conn i).pushStream.tell)).length =
      size - (s.conn i).pushStream.tell := by
    rw [List.length_take]
    omega
  have push : (s'.conn i).pushStream =
      { (s.conn i).pushStream.advance (size - (s.conn i).pushStream.tell) with
        id := (s.object address).queueHead.id, queue := none } := by rw [conn]
  have item := looping.item steady last there ((s.conn i).inBuf.take
    (size - (s.conn i).pushStream.tell)) env.stray (by omega)
  rw [Loop.next_chunk reading enough, some,
    newEntries_published made (steady.fresh address) objects]
  refine
    { answer := by rw [conn]
      reads := by simp [looping.reads]
      count := by rw [chunkSize, ← last.count]; simp
      full := ?_
      body := ?_
      ending := ?_
      rest := by rw [conn]; exact (looping.drop told 2).symm
      closed := by rw [push]
      tell := ?_
      finished := by rw [push]; exact last.chunkPos
      added := by rw [push]; simp only [looping.added, Set.empty_union]
      item := ?_ }
  · rw [chunkSize]
    simp only [Option.toList_some, List.dropLast_concat]
    exact looping.full
  · simp only [Option.toList_some, List.flatten_append, List.flatten_singleton]
    rw [looping.split, List.take_append,
      List.take_of_length_le (show loop.writes.flatten.length ≤ size by omega), ← tell]
  · have rest := looping.drop told 0
    simp only [Nat.add_zero] at rest ⊢
    rw [rest]
    exact ending
  · rw [push]
    simp only [OQStream.tell, OQStream.advance] at told ⊢
    omega
  · rw [push, object_of_objects made objects, if_pos rfl]
    exact item

theorem step_writing {bytes : Bytes} {next : Next} (awake : Awake none s)
    (writing : (s.conn i).pending = .write bytes next) (mine : serving s event = some i)
    (run : s.Step event s') :
    (∃ env, event = .writeDone i env ∧ s' = s.writeDone i env) ∨
    (∃ env, event = .writeFailed i env ∧ s' = s.drop i (env.io 4)) ∨
    (∀ env, event ≠ .writeDone i env) ∧ s' = s := by
  cases event with
  | writeDone j env =>
    obtain rfl := Option.some.inj mine
    exact .inl ⟨env, rfl, (Except.ok.inj run).symm⟩
  | writeFailed j env =>
    obtain rfl := Option.some.inj mine
    have run : s.writeFailed j env = s' := Except.ok.inj run
    simp only [Server.writeFailed, writing] at run
    exact .inr (.inl ⟨env, rfl, run.symm⟩)
  | accept | expire | recv | readDone | readFailed | callback =>
    exact .inr (.inr ⟨by simp, step_unawaited awake mine (by rw [writing]; rfl) run⟩)

theorem cleans_dying {h : Handler} {text : Bytes} (awake : Awake none s) (steady : Steady s)
    (dying : h.pending = .write text .hangUp) : Cleans i h s := by
  rintro event u' rfl ⟨step, fits⟩ clean closed a n ⟨isOpen, multi, inside⟩ mem
  have there : i < s.conns.length := Server.conn_there (by simp [dying])
  have mine : serving s event = some i := by
    by_contra other
    rw [step_others awake step there other, dying] at closed
    cases closed
  obtain ⟨m, rfl⟩ : ∃ m, u' = s.drop i (outcomes event m) := by
    rcases step_writing awake dying mine step with
      ⟨env, rfl, rfl⟩ | ⟨env, rfl, rfl⟩ | ⟨-, rfl⟩
    · exact ⟨4, by simp only [Server.writeDone, dying]; rfl⟩
    · exact ⟨4, rfl⟩
    · cases dying.symm.trans closed
  have own := (steady.sound a).cons.layout.unfinished _ (mem_writers there isOpen) multi
  have stop := own.stop
  obtain ⟨above, below⟩ := Finset.mem_Ico.mp inside
  have reserved : n ∈ (s.conn i).pushStream.reserved := by
    rw [OQStream.reserved_multi multi]
    exact Finset.mem_Ico.mpr ⟨above, by omega⟩
  rw [mem_iff_lookup, lookup_drop steady there, if_pos ⟨clean m, isOpen, reserved⟩] at mem
  obtain ⟨value, wrong⟩ := mem
  cases wrong

inductive Body (i address size : ℕ) (p : Server × Loop) : Prop where
  | looping (looping : Looping i address size p.1 p.2)
  | stored (stored : StoredBody i address size p.1 p.2)
  | refused (refused : Refused i address size p.1 p.2)

theorem watched_body {chunkSize : ℕ} {dataPath : Bytes} (pos : 0 < chunkSize)
    {p p' : Server × Loop} (reach : Reachable Life (.empty chunkSize dataPath) p.1)
    (body : Body i address size p) (watched : Watched i p event p') :
    Body i address size p' := by
  obtain ⟨s, loop⟩ := p
  obtain ⟨s', loop'⟩ := p'
  obtain ⟨⟨n, reading⟩, life, clean, stays, next⟩ := watched
  obtain rfl : loop' = loop.next i s event s' := next
  obtain ⟨awake, steady⟩ := reachable_steady pos reach
  have reach' := reach.next life
  have steady' := (reachable_steady pos reach').2
  obtain ⟨step, fits⟩ := life
  have looping : Looping i address size s loop := by
    cases body with
    | looping looping => exact looping
    | stored stored => cases reading.symm.trans stored.answer
    | refused refused => cases reading.symm.trans refused.answer
  have there : i < s.conns.length := Server.conn_there (by simp [reading])
  have made := steady.sited.held i address (.inr looping.isOpen)
  by_cases mine : serving s event = some i
  case neg =>
    exact .looping ((looping.toUnderway.other awake steady step fits.chunks mine).looping steady')
  have numBytes := looping.numBytes
  cases step_reacts awake reading mine step with
  | nothing early =>
    rw [Loop.next_nothing reading early]
    exact .looping looping
  | bytes room => exact .looping ((looping.toUnderway.bytes there rfl).looping steady')
  | @chunk env enough =>
    have handled : Handled i address env s (s.setOnReadChunk i env) := setOnReadChunk_handled there
      looping.isOpen made (clean mine) (steady.receives.reading i n reading) enough
    have keeps : KeepsMap i s (s.setOnReadChunk i env) := keeps_setOnReadChunk there
    have chunkSize := keeps.chunkSize
    cases handled with
    | refused last ending after =>
      rw [numBytes] at last ending
      have answer : ((s.setOnReadChunk i env).conn i).pending =
          .write (ascii "CLIENT_ERROR bad data chunk\r\n") .hangUp := by
        rw [after, conn_badChunk there]
      refine .refused (looping.refused steady there reading enough last ending after ?_)
      rintro u ⟨later, run⟩
      obtain ⟨awake', steady'⟩ := reachable_steady pos (reach'.runs run)
      exact cleans_dying awake' steady' answer
    | more large room conn reading' objects =>
      rw [numBytes] at large
      exact .looping ((looping.more made reading enough large room conn reading' chunkSize
        objects).looping steady')
    | stored last room ending conn objects =>
      rw [numBytes] at last room ending conn objects
      exact .stored (looping.stored steady there made reading enough last room ending conn chunkSize
        objects)
  | failed missing => exact absurd rfl (stays _)

/-! From the `set` line on. -/

theorem step_parsed {req : Request} (asked : parsed s i (.readDone i env) = some req) :
    (s.conn i).pending = .readUntil ∧ ∃ n, Server.lineLength (s.conn i).inBuf = some n ∧
      s.step (.readDone i env) = (s.setConn i { s.conn i with
        req := req, inBuf := (s.conn i).inBuf.drop n }).dispatch i env := by
  simp only [parsed, true_and] at asked
  split at asked
  case isFalse => cases asked
  case isTrue reading =>
    obtain ⟨n, line, parse⟩ := Option.bind_eq_some_iff.mp asked
    refine ⟨reading, n, line, ?_⟩
    simp only [Server.step, Server.readDone, reading, line, Server.parseRequest, parse]

theorem dispatch_set {req : Request} {rest : Bytes} (there : i < s.conns.length)
    (type : req.type = .set) :
    (s.setConn i { s.conn i with req := req, inBuf := rest }).dispatch i env =
      (s.setConn i { s.conn i with req := req, inBuf := rest }).countSet.set i := by
  rw [Server.dispatch, Server.conn_setConn_self _ there]
  simp only [type]

theorem set_not_open (closed : (s.conn i).pushStream.queue = none) :
    s.set i ≠ .error .pushAlreadyOpen := by
  intro failed
  rcases bind_error failed with new | ⟨⟨a, t⟩, found, failed⟩
  · unfold Server.queueAt Server.newQueue at new
    split at new
    · cases new
    · split at new <;> cases new
  · have conns := (queueAt_registers found).2
    dsimp only at failed
    split at failed
    case h_1 e wrong =>
      rw [Server.pushOpen, Server.conn_congr conns i, OQStream.open_, closed] at wrong
      cases wrong
    case h_2 => cases failed

theorem conn_pushOpen {count : ℕ} {sync : Bool} (there : i < s.conns.length)
    (opened : s.pushOpen i address count sync = .ok t) :
    i < t.conns.length ∧ t.queues = s.queues ∧ ∃ stream : OQStream,
      t.conn i = { s.conn i with pushStream := stream } ∧ stream.queue = some address ∧
      stream.chunkPos = stream.header.beg := by
  obtain ⟨closed, rfl⟩ := pushOpen_ok opened
  refine ⟨lt_of_lt_of_eq there List.length_set.symm, rfl, _,
    Server.conn_setObject_setConn address _ _ there, queue_oopen _ address _ _ _ closed, ?_⟩
  simp [OQStream.open_, closed]

theorem underway_set (there : i < s.conns.length) (run : s.set i = .ok s') :
    ∃ address, s'.queues.lookup (s.conn i).req.queue = some address ∧
      Underway i address (s.conn i).req.numBytes s' { input := (s'.conn i).inBuf } := by
  obtain ⟨a, t, u, found, opened, rfl⟩ := Server.set_ok run
  obtain ⟨registered, conns⟩ := queueAt_registers found
  obtain ⟨there', queues, stream, conn, isOpen, chunkPos⟩ := conn_pushOpen (conns ▸ there) opened
  rw [Server.conn_congr conns i] at conn
  have conn' := conn_readNextChunk there'
  rw [conn] at conn'
  refine ⟨a, (congrArg (Finmap.lookup _) queues).trans registered, ?_⟩
  exact
    { reading := ⟨_, by rw [conn']⟩
      numBytes := by rw [conn']
      isOpen := by rw [conn']; exact isOpen
      reads := rfl
      full := fun chunk mem => by cases mem
      split := rfl
      chunkPos := by rw [conn']; exact chunkPos
      kept := fun _ m chunk found => by cases found
      added := rfl }

theorem pushValue_error {value : Bytes} {sync ok : Bool} {e : Error}
    (failed : q.pushValue value sync ok = .error e) : e = .ioError := by
  cases ok with
  | false => exact (Except.error.inj failed).symm
  | true => cases failed

theorem write_error {e : Error} (isOpen : stream.queue.isSome)
    (left : stream.chunkPos < stream.header.end_)
    (failed : (stream.write q chunk stray io).1 = .error e) : e = .ioError := by
  rw [OQStream.write, if_neg (not_stuck isOpen left)] at failed
  cases store : stream.store q chunk stray (io 0) with
  | error e' =>
    rw [store] at failed
    obtain rfl := Except.error.inj failed
    unfold OQStream.store at store
    split at store
    · rcases bind_error store with push | ⟨pair, -, wrong⟩
      · exact pushValue_error push
      · cases wrong
    · rcases bind_error store with put | ⟨q', -, wrong⟩
      · unfold Queue.writeChunk Queue.put at put
        split at put
        · cases put
        · exact (Except.error.inj put).symm
      · cases wrong
  | ok pair =>
    rw [store] at failed
    simp only [OQStream.finish] at failed
    split at failed
    · split at failed
      · split at failed
        case h_1 e' push =>
          obtain rfl := Except.error.inj failed
          exact pushValue_error push
        case h_2 => cases failed
      · cases failed
    · cases failed

/-- No subtraction wraps and no access leaves `in_` when a handler waits for a chunk or is
called back with it. The callback touches the bytes that it requires. -/
structure InRange (s : Server) (i n : ℕ) : Prop where
  told : (s.conn i).pushStream.tell ≤ (s.conn i).req.numBytes
  fits : required s.chunkSize (s.conn i) ≤ s.capacity
  room : 0 < n → (s.conn i).inBuf.length < s.capacity
  buffered : n = 0 ∨ s.capacity ≤ (s.conn i).inBuf.length →
    required s.chunkSize (s.conn i) ≤ (s.conn i).inBuf.length
  goesOn : ∀ q chunk stray io, ((s.conn i).pushStream.write q chunk stray io).1 ≠ .error .eof

theorem inRange_reading (steady : Steady s) (reading : (s.conn i).pending = .readChunk n) :
    InRange s i n := by
  have receiving := steady.receives.reading i n reading
  have filling := receiving.filling
  have fits : required s.chunkSize (s.conn i) ≤ s.capacity := by
    unfold required Server.capacity
    dsimp only
    split <;> omega
  refine ⟨filling.told_le, fits, fun missing => ?_, fun enough => receiving.buffered enough, ?_⟩
  · have := receiving.missing
    omega
  · intro q chunk stray io eof
    cases write_error receiving.isOpen filling.stop eof

theorem set_body {chunkSize : ℕ} {dataPath : Bytes} {req : Request} (pos : 0 < chunkSize)
    (reach : Reachable Life (.empty chunkSize dataPath) s)
    (asked : parsed s i (.readDone i env) = some req) (type : req.type = .set)
    (life : Life s (.event (.readDone i env)) s') :
    ∃ address, s'.queues.lookup req.queue = some address ∧
      ∀ events p, Runs (Watched i) (s', { input := (s'.conn i).inBuf }) events p →
        Reachable Life (.empty chunkSize dataPath) p.1 ∧ Body i address req.numBytes p := by
  have reach' := reach.next life
  obtain ⟨reading, n, -, step⟩ := step_parsed asked
  have there : i < s.conns.length := Server.conn_there (by simp [reading])
  have conn : (s.setConn i { s.conn i with
      req := req, inBuf := (s.conn i).inBuf.drop n }).countSet.conn i =
      { s.conn i with req := req, inBuf := (s.conn i).inBuf.drop n } :=
    Server.conn_setConn_self _ there
  obtain ⟨run, -⟩ := life
  have run : s.step (.readDone i env) = .ok s' := run
  rw [step, dispatch_set there type] at run
  obtain ⟨address, found, underway⟩ :=
    underway_set (lt_of_lt_of_eq there List.length_set.symm) run
  rw [conn] at found underway
  refine ⟨address, found, fun events p runs => ?_⟩
  have body := underway.looping (reachable_steady pos reach').2
  refine runs.preserves (P := fun p => Reachable Life (.empty chunkSize dataPath) p.1 ∧
    Body i address req.numBytes p) ?_ (fun _ _ => trivial) ⟨reach', .looping body⟩
  rintro p event p' - ⟨reach, body⟩ watched
  exact ⟨reach.next watched.life, watched_body pos reach body watched⟩

/-- In every run, whatever its journal calls return, the loop stays in `in_` and in its
reservation, and a `set` finds its push stream closed. When the journal calls of the
connection succeed, the loop ends after `max(1, ceil(num_bytes / chunk_size_))` calls of
`set_on_read_chunk`, with the body stored, or refused for its terminator. -/
theorem set_stores_body {chunkSize : ℕ} {dataPath : Bytes} (pos : 0 < chunkSize) :
    (∀ s i n, Reachable Life (.empty chunkSize dataPath) s → (s.conn i).pending = .readChunk n →
      InRange s i n) ∧
    ∀ s i env req, Reachable Life (.empty chunkSize dataPath) s →
      parsed s i (.readDone i env) = some req → req.type = .set →
      s.step (.readDone i env) ≠ .error .pushAlreadyOpen ∧
      ∀ s', Life s (.event (.readDone i env)) s' → ∃ address,
        s'.queues.lookup req.queue = some address ∧
        ∀ events p, Runs (Watched i) (s', { input := (s'.conn i).inBuf }) events p →
          Body i address req.numBytes p := by
  refine ⟨fun s i n reach reading => inRange_reading (reachable_steady pos reach).2 reading, ?_⟩
  intro s i env req reach asked type
  refine ⟨?_, fun s' life => ?_⟩
  · obtain ⟨reading, n, -, step⟩ := step_parsed asked
    have there : i < s.conns.length := Server.conn_there (by simp [reading])
    have closed := reachable_shut pos reach i (by simp [Free, reading])
    rw [step, dispatch_set there type]
    refine set_not_open ?_
    have conn := Server.conn_setConn_self
      { s.conn i with req := req, inBuf := (s.conn i).inBuf.drop n } there
    exact (congrArg (fun h => h.pushStream.queue) conn).trans closed
  · obtain ⟨address, found, each⟩ := set_body pos reach asked type life
    exact ⟨address, found, fun events p runs => (each events p runs).2⟩

def readsChunk : Pending → Bool
  | .readChunk _ => true
  | _ => false

theorem readsChunk_eq {pending : Pending} (reads : readsChunk pending = true) :
    ∃ n, pending = .readChunk n := by
  cases pending with
  | readChunk n => exact ⟨n, rfl⟩
  | _ => cases reads

def watching (i : ℕ) : Server × Loop → List ServerEvent → Option (Server × Loop) :=
  during readsChunk i (Loop.next i)

theorem runs_watching {p p' : Server × Loop} {events : List ServerEvent}
    (run : watching i p events = some p') (clean : ∀ event ∈ events, ∀ n, outcomes event n = true)
    (stays : ∀ event ∈ events, ∀ env, event ≠ .readFailed i env) :
    Runs (Watched i) p events p' := by
  have runs : Runs (Watched i) p (events.map id) p' :=
    runs_during id id (fun event mem s a t reads life =>
      ⟨readsChunk_eq reads, life, fun _ => clean event mem, stays event mem, rfl⟩) run
  rwa [List.map_id] at runs

def bodyPieces : List ServerEvent :=
  let env : Env := ⟨fun _ => true, 0, 0, 0⟩
  [.recv 0 (ascii "0123456"), .recv 0 (ascii "789abcdefg"), .readDone 0 env,
    .recv 0 (ascii "h\r\n"), .readDone 0 env]

theorem set_stores_body_two : ∃ s s' p,
    Reachable Life (.empty 16 [47]) s ∧
    Life s (.event (.readDone 0 ⟨fun _ => true, 0, 0, 0⟩)) s' ∧
    Runs (Watched 0) (s', { input := (s'.conn 0).inBuf }) bodyPieces p ∧
    StoredBody 0 0 18 p.1 p.2 := by
  have facts : (fitting (.empty 16 [47]) [.accept, .recv 0 (ascii "set q 0 0 18\r\n")]).map
      (fun s => (decide ((parsed s 0 (.readDone 0 ⟨fun _ => true, 0, 0, 0⟩)).map
          (fun req => (req.type, req.queue, req.numBytes)) = some (.set, ascii "q", 18)),
        (fitting s [.readDone 0 ⟨fun _ => true, 0, 0, 0⟩]).map fun s' =>
          (s'.queues.lookup (ascii "q"),
            (watching 0 (s', { input := (s'.conn 0).inBuf }) bodyPieces).map fun p =>
              (p.1.conn 0).pending))) =
      some (true, some (some 0, some (.write (ascii "STORED\r\n") .readRequest))) := by decide
  obtain ⟨s, run, facts⟩ := Option.map_eq_some_iff.mp facts
  obtain ⟨asked, step⟩ := Prod.mk.inj facts
  obtain ⟨req, asked, same⟩ := Option.map_eq_some_iff.mp (of_decide_eq_true asked)
  simp only [Prod.mk.injEq] at same
  obtain ⟨type, queue, size⟩ := same
  obtain ⟨s', first, found⟩ := Option.map_eq_some_iff.mp step
  obtain ⟨found, last⟩ := Prod.mk.inj found
  obtain ⟨p, watched, answer⟩ := Option.map_eq_some_iff.mp last
  obtain ⟨u, life, same⟩ := fitting_cons first
  obtain rfl := Option.some.inj same
  have runs := runs_watching watched (by simp [bodyPieces, outcomes]) (by simp [bodyPieces])
  have reach : Reachable Life (.empty 16 [47]) s := reachable_fitting .refl run
  obtain ⟨-, next⟩ := (set_stores_body (by decide)).2 s 0 _ req reach asked type
  obtain ⟨address, found', each⟩ := next u life
  rw [queue] at found'
  obtain rfl := Option.some.inj (found.symm.trans found')
  have body := each _ _ runs
  rw [size] at body
  refine ⟨s, u, p, reach, life, runs, ?_⟩
  cases body with
  | looping looping =>
    obtain ⟨n, reading⟩ := looping.reading
    cases reading.symm.trans answer
  | stored stored => exact stored
  | refused refused => exact absurd answer refused.not_stored

end Darner.SetBodies
