import Darner.SetBodies

/-! The effect of a request on the queues that it does not name. A connection has one pop
stream for all its requests, so a `get` with `close` or `abort` ends the item that an earlier
`get` has left open, in whatever queue it was popped, and a connection that ends gives it
back. All other queues are left as they are: what is available in them, what is held, what
is stored, and the streams that are open on them. -/

namespace Darner.RequestFrame
open OrderedStore LabelledRuns StreamMoves ReadProgress ServerMoves ServerWaiters FetchDeeds
open FetchEvents ReliableFetch ServerCalls SetProgress ChunkStore SetBodies

variable {s s' t u : Server} {i a b : ℕ} {env : Env} {name : Bytes}

/-- The queue at `a`, the streams on it and its names are as they were. -/
structure Spares (i a : ℕ) (s s' : Server) : Prop where
  config : config s' a = config s a
  reader : readerOn a (s'.conn i) = readerOn a (s.conn i)
  writer : writerOn a (s'.conn i) = writerOn a (s.conn i)
  conns : s.conns.length ≤ s'.conns.length
  made : s.objects.length ≤ s'.objects.length
  names : ∀ name, s.queues.lookup name = some a → s'.queues.lookup name = some a

theorem Spares.refl (i a : ℕ) (s : Server) : Spares i a s s :=
  ⟨rfl, rfl, rfl, le_refl _, le_refl _, fun _ found => found⟩

theorem Spares.trans (first : Spares i a s t) (second : Spares i a t u) : Spares i a s u where
  config := second.config.trans first.config
  reader := second.reader.trans first.reader
  writer := second.writer.trans first.writer
  conns := first.conns.trans second.conns
  made := first.made.trans second.made
  names name found := second.names name (first.names name found)

theorem Spares.there (spares : Spares i a s t) (there : i < s.conns.length) :
    i < t.conns.length := lt_of_lt_of_le there spares.conns

theorem readerOn_iff {h : Handler} : readerOn a h = none ↔ h.popStream.queue ≠ some a := by
  unfold readerOn
  split <;> simp_all

theorem writerOn_iff {h : Handler} : writerOn a h = none ↔ h.pushStream.queue ≠ some a := by
  unfold writerOn
  split <;> simp_all

theorem Spares.popOff (spares : Spares i a s t) (off : (s.conn i).popStream.queue ≠ some a) :
    (t.conn i).popStream.queue ≠ some a :=
  readerOn_iff.mp (spares.reader.trans (readerOn_iff.mpr off))

theorem Spares.pushOff (spares : Spares i a s t) (off : (s.conn i).pushStream.queue ≠ some a) :
    (t.conn i).pushStream.queue ≠ some a :=
  writerOn_iff.mp (spares.writer.trans (writerOn_iff.mpr off))

theorem spares_setConn {h : Handler} (there : i < s.conns.length)
    (reader : readerOn a h = readerOn a (s.conn i))
    (writer : writerOn a h = writerOn a (s.conn i)) : Spares i a s (s.setConn i h) where
  config := config_setConn there reader writer
  reader := by rw [Server.conn_setConn_self h there, reader]
  writer := by rw [Server.conn_setConn_self h there, writer]
  conns := le_of_eq List.length_set.symm
  made := le_refl _
  names _ found := found

theorem spares_setPending (there : i < s.conns.length) (pending : Pending) :
    Spares i a s (s.setPending i pending) :=
  spares_setConn there rfl rfl

theorem spares_reply (there : i < s.conns.length) (text : Bytes) (next : Next) :
    Spares i a s (s.reply i text next) :=
  spares_setPending there _

theorem spares_stats (i a : ℕ) (s : Server) (stats : Stats) :
    Spares i a s { s with stats := stats } :=
  ⟨rfl, rfl, rfl, le_refl _, le_refl _, fun _ found => found⟩

theorem spares_statsReply (there : i < s.conns.length) (stats : Stats) (text : Bytes)
    (next : Next) : Spares i a s ({ s with stats := stats }.reply i text next) := by
  have there' : i < ({ s with stats := stats } : Server).conns.length := there
  exact (spares_stats i a s stats).trans (spares_reply there' text next)

theorem spares_setObject (q : Queue) (ne : b ≠ a) : Spares i a s (s.setObject b q) where
  config := by
    rw [ServerMoves.config, Server.object_setObject_ne s q (Ne.symm ne)]
    rfl
  reader := rfl
  writer := rfl
  conns := le_refl _
  made := le_of_eq List.length_set.symm
  names _ found := found

theorem spares_call {h : Handler} (q : Queue) (there : i < s.conns.length) (ne : b ≠ a)
    (reader : readerOn a h = readerOn a (s.conn i))
    (writer : writerOn a h = writerOn a (s.conn i)) :
    Spares i a s ((s.setObject b q).setConn i h) :=
  (spares_setObject q ne).trans (spares_setConn there reader writer)

theorem spares_withQueue (made : a < s.objects.length) (absent : s.queues.lookup name = none) :
    Spares i a s (s.withQueue name) where
  config := by
    rw [ServerMoves.config, Server.object_withQueue_ne s name (Nat.ne_of_lt made)]
    rfl
  reader := rfl
  writer := rfl
  conns := le_refl _
  made := by
    rw [Server.withQueue, List.length_append]
    exact Nat.le_add_right _ _
  names _ found := Server.lookup_withQueue_old absent found

theorem spares_withoutQueue (other : s.queues.lookup name ≠ some a) (ne : b ≠ a) :
    Spares i a s (s.withoutQueue name b) := by
  refine { spares_setObject (i := i) _ ne with names := fun n found => ?_ }
  have differs : n ≠ name := by
    rintro rfl
    exact other found
  exact (Finmap.lookup_erase_ne differs).trans found

theorem spares_queueAt (made : a < s.objects.length) (other : s.queues.lookup name ≠ some a)
    (found : s.queueAt name = .ok (b, t)) : Spares i a s t ∧ b ≠ a := by
  rcases Server.queueAt_ok found with ⟨found, rfl⟩ | ⟨absent, rfl, rfl⟩
  · refine ⟨.refl i a _, ?_⟩
    rintro rfl
    exact other found
  · exact ⟨spares_withQueue made absent, Ne.symm (Nat.ne_of_lt made)⟩

theorem spares_eraseQueue {recreate : Bool} (made : a < s.objects.length)
    (other : s.queues.lookup name ≠ some a) (erase : s.eraseQueue name recreate = .ok t) :
    Spares i a s t := by
  rcases Server.eraseQueue_ok erase with rfl | ⟨b, found, rfl | rfl⟩
  · exact .refl i a _
  · exact spares_withoutQueue other fun same => other (same ▸ found)
  · have without : Spares i a s (s.withoutQueue name b) :=
      spares_withoutQueue other fun same => other (same ▸ found)
    exact without.trans (spares_withQueue (lt_of_lt_of_le made without.made) (Finmap.lookup_erase _ _))

theorem spares_popRead (there : i < s.conns.length) (off : (s.conn i).popStream.queue ≠ some a)
    (io : Io) : Spares i a s (s.popRead i io).2 := by
  refine spares_setConn there ?_ rfl
  rw [readerOn_none off]
  exact readerOn_none fun isOpen => off (((s.conn i).popStream.queue_read _ io).symm.trans isOpen)

theorem spares_popClose {erase ok : Bool} (there : i < s.conns.length)
    (off : (s.conn i).popStream.queue ≠ some a) (close : s.popClose i erase ok = .ok t) :
    Spares i a s t := by
  rcases Server.popClose_ok close with ⟨-, rfl⟩ | ⟨b, q, isOpen, -, rfl⟩
  · exact .refl i a _
  · refine spares_call q there (fun same => off (same ▸ isOpen)) ?_ rfl
    rw [readerOn_none off]
    exact readerOn_none (by simp)

theorem spares_popOpen (there : i < s.conns.length) (ne : b ≠ a) :
    Spares i a s (s.popOpen i b).2 := by
  rcases s.popOpen_cases i b with ⟨-, h⟩ | ⟨-, -, h⟩ | ⟨closed, id, q, -, h⟩
  · rw [h]
    exact .refl i a s
  · rw [h]
    exact .refl i a s
  · rw [h]
    have off : readerOn a (s.conn i) = none := readerOn_none (by rw [closed]; simp)
    refine spares_call q there ne ?_ rfl
    rw [off]
    exact readerOn_none (by simpa using ne)

theorem spares_pushWrite {chunk : Bytes} {stray : UInt8} {io : Io} (there : i < s.conns.length)
    (off : (s.conn i).pushStream.queue ≠ some a) :
    Spares i a s (s.pushWrite i chunk stray io).2 := by
  unfold Server.pushWrite
  split
  · exact .refl i a s
  case h_2 b isOpen =>
    refine spares_call _ there (fun same => off (same ▸ isOpen)) rfl ?_
    rw [writerOn_none off]
    refine writerOn_none ?_
    rcases queue_write (s.conn i).pushStream (s.object b) chunk stray io with same | none
    · rw [same]
      exact off
    · rw [none]
      simp

theorem spares_dropPush {ok : Bool} (there : i < s.conns.length)
    (off : (s.conn i).pushStream.queue ≠ some a) : Spares i a s (s.dropPush i ok) := by
  unfold Server.dropPush
  split
  · exact .refl i a s
  case h_2 b isOpen =>
    refine spares_call _ there (fun same => off (same ▸ isOpen)) rfl ?_
    rw [writerOn_none off]
    exact writerOn_none (by simp)

theorem spares_dropPop (there : i < s.conns.length)
    (off : (s.conn i).popStream.queue ≠ some a) : Spares i a s (s.dropPop i) := by
  unfold Server.dropPop
  split
  · exact .refl i a s
  case h_2 b isOpen =>
    refine spares_call _ there (fun same => off (same ▸ isOpen)) ?_ rfl
    rw [readerOn_none off]
    exact readerOn_none (by simp)

theorem spares_closed {stats : Stats} (there : i < s.conns.length)
    (popOff : (s.conn i).popStream.queue ≠ some a) (pushOff : (s.conn i).pushStream.queue ≠ some a) :
    Spares i a s { s.setConn i { pending := .closed } with stats := stats } := by
  refine (spares_setConn there ?_ ?_).trans (spares_stats i a _ stats)
  · rw [readerOn_none popOff]
    exact readerOn_none (by simp)
  · rw [writerOn_none pushOff]
    exact writerOn_none (by simp)

theorem spares_drop {ok : Bool} (there : i < s.conns.length)
    (popOff : (s.conn i).popStream.queue ≠ some a) (pushOff : (s.conn i).pushStream.queue ≠ some a) :
    Spares i a s (s.drop i ok) := by
  have first : Spares i a s (s.dropPush i ok) := spares_dropPush there pushOff
  have second := first.trans (spares_dropPop (first.there there) (first.popOff popOff))
  exact second.trans (spares_closed (second.there there) (second.popOff popOff)
    (second.pushOff pushOff))

theorem spares_set (there : i < s.conns.length) (made : a < s.objects.length)
    (other : s.queues.lookup (s.conn i).req.queue ≠ some a) (run : s.set i = .ok s') :
    Spares i a s s' := by
  obtain ⟨b, t, u, found, opened, rfl⟩ := Server.set_ok run
  obtain ⟨first, ne⟩ := spares_queueAt (i := i) made other found
  have there' : i < t.conns.length := first.there there
  have second : Spares i a t u := by
    obtain ⟨closed, rfl⟩ := pushOpen_ok opened
    have off : writerOn a (t.conn i) = none := writerOn_none (by rw [closed]; simp)
    refine spares_call _ there' ne rfl ?_
    rw [off]
    refine writerOn_none ?_
    rw [queue_oopen _ b _ _ _ closed]
    simpa using ne
  exact (first.trans second).trans (spares_setPending (second.there there') _)

theorem spares_storeChunk {chunk : Bytes} (there : i < s.conns.length)
    (off : (s.conn i).pushStream.queue ≠ some a) : Spares i a s (s.storeChunk i chunk env) := by
  have write : Spares i a s (s.pushWrite i chunk env.stray env.io).2 := spares_pushWrite there off
  unfold Server.storeChunk
  split
  case h_1 e t failed =>
    rw [failed] at write
    exact write.trans (spares_reply (write.there there) _ _)
  case h_2 t done =>
    rw [done] at write
    have there' : i < t.conns.length := write.there there
    split
    · exact write.trans (spares_statsReply there' _ _ _)
    · exact write.trans (spares_setPending there' _)

theorem spares_setOnReadChunk (there : i < s.conns.length)
    (off : (s.conn i).pushStream.queue ≠ some a) : Spares i a s (s.setOnReadChunk i env) := by
  rw [setOnReadChunk_passed]
  split
  · exact spares_reply there _ _
  · dsimp only
    generalize List.drop _ (s.conn i).inBuf = rest
    have consumed : Spares i a s (s.setConn i { s.conn i with inBuf := rest }) :=
      spares_setConn there rfl rfl
    exact consumed.trans (spares_storeChunk (consumed.there there) (consumed.pushOff off))

theorem spares_getFinish {text : Bytes} {closeOk dropOk : Bool} (there : i < s.conns.length)
    (popOff : (s.conn i).popStream.queue ≠ some a) (pushOff : (s.conn i).pushStream.queue ≠ some a) :
    Spares i a s (s.getFinish i text closeOk dropOk) := by
  unfold Server.getFinish
  split
  · exact spares_statsReply there _ _ _
  · split
    · exact spares_drop there popOff pushOff
    case h_2 t close =>
      have first := spares_popClose there popOff close
      exact first.trans (spares_statsReply (first.there there) _ _ _)

theorem spares_getRead (there : i < s.conns.length)
    (popOff : (s.conn i).popStream.queue ≠ some a) (pushOff : (s.conn i).pushStream.queue ≠ some a) :
    Spares i a s (s.getRead i env) := by
  have read := spares_popRead there popOff fun n => env.io (n + 1)
  unfold Server.getRead
  split
  case h_1 e t failed =>
    rw [failed] at read
    exact read.trans (spares_reply (read.there there) _ _)
  case h_2 buf t done =>
    rw [done] at read
    have there' : i < t.conns.length := read.there there
    dsimp only
    split
    · exact read.trans (spares_getFinish there' (read.popOff popOff) (read.pushOff pushOff))
    · exact read.trans (spares_reply there' _ _)

theorem spares_getOnWriteChunk (there : i < s.conns.length)
    (popOff : (s.conn i).popStream.queue ≠ some a) (pushOff : (s.conn i).pushStream.queue ≠ some a) :
    Spares i a s (s.getOnWriteChunk i env) := by
  have read := spares_popRead there popOff fun n => env.io (n + 1)
  unfold Server.getOnWriteChunk
  dsimp only
  split
  · exact spares_getFinish there popOff pushOff
  · split
    case h_1 e t failed =>
      rw [failed] at read
      exact read.trans (spares_drop (read.there there) (read.popOff popOff)
        (read.pushOff pushOff))
    case h_2 buf t done =>
      rw [done] at read
      exact read.trans (spares_reply (read.there there) _ _)

theorem spares_getPop (there : i < s.conns.length) (made : a < s.objects.length)
    (other : s.queues.lookup (s.conn i).req.queue ≠ some a)
    (popOff : (s.conn i).popStream.queue ≠ some a) (pushOff : (s.conn i).pushStream.queue ≠ some a)
    (run : s.getPop i env = .ok s') : Spares i a s s' := by
  rcases Server.getPop_ok run with ⟨msg, rfl⟩ | ⟨-, b, t, found, next⟩
  · exact spares_reply there _ _
  · obtain ⟨first, ne⟩ := spares_queueAt (i := i) made other found
    have there' : i < t.conns.length := first.there there
    have second := first.trans (spares_popOpen there' ne)
    have there'' : i < (t.popOpen i b).2.conns.length := second.there there
    rcases next with ⟨-, rfl⟩ | ⟨-, ⟨msg, rfl⟩ | ⟨waitMs, rfl⟩⟩
    · exact second.trans (spares_getRead there'' (second.popOff popOff) (second.pushOff pushOff))
    · exact second.trans (spares_reply there'' _ _)
    · have line := second.trans (spares_setObject
        (((t.popOpen i b).2.object b).wait waitMs i) ne)
      exact line.trans (spares_setPending (line.there there) _)

/-! The item that the connection has left open. -/

structure Parts (stream : IQStream) (erase : Bool) (c c' : Config) : Prop where
  readers : c.readers.Perm (stream :: c'.readers)
  writers : c'.writers = c.writers
  queue : ∃ ok, c.queue.popEnd erase stream.id stream.header ok = .ok c'.queue

structure Parted (i a : ℕ) (erase : Bool) (s s' : Server) : Prop where
  held : (s.conn i).popStream.queue = some a
  parts : Parts (s.conn i).popStream erase (config s a) (config s' a)
  off : (s'.conn i).popStream.queue ≠ some a
  writer : writerOn a (s'.conn i) = writerOn a (s.conn i)
  conns : s.conns.length ≤ s'.conns.length
  made : s.objects.length ≤ s'.objects.length
  names : ∀ name, s.queues.lookup name = some a → s'.queues.lookup name = some a

theorem Parted.there {erase : Bool} (parted : Parted i a erase s t) (there : i < s.conns.length) :
    i < t.conns.length := lt_of_lt_of_le there parted.conns

theorem Parted.spares {erase : Bool} (parted : Parted i a erase s t) (spares : Spares i a t u) :
    Parted i a erase s u where
  held := parted.held
  parts := by rw [spares.config]; exact parted.parts
  off := spares.popOff parted.off
  writer := spares.writer.trans parted.writer
  conns := parted.conns.trans spares.conns
  made := parted.made.trans spares.made
  names name found := spares.names name (parted.names name found)

theorem Spares.stream (spares : Spares i a s t) (held : (s.conn i).popStream.queue = some a) :
    (t.conn i).popStream = (s.conn i).popStream := by
  have reader := spares.reader
  rw [readerOn_open held] at reader
  unfold readerOn at reader
  split at reader
  · exact Option.some.inj reader
  · cases reader

theorem Spares.parted {erase : Bool} (spares : Spares i a s t)
    (held : (s.conn i).popStream.queue = some a) (parted : Parted i a erase t u) :
    Parted i a erase s u where
  held := held
  parts := by rw [← spares.config, ← spares.stream held]; exact parted.parts
  off := parted.off
  writer := parted.writer.trans spares.writer
  conns := spares.conns.trans parted.conns
  made := spares.made.trans parted.made
  names name found := parted.names name (spares.names name found)

theorem parted_end {erase ok : Bool} {q : Queue} {stream : IQStream} (there : i < s.conns.length)
    (made : a < s.objects.length) (held : (s.conn i).popStream.queue = some a)
    (pop : (s.object a).popEnd erase (s.conn i).popStream.id (s.conn i).popStream.header ok = .ok q)
    (closed : stream.queue = none) :
    Parted i a erase s ((s.setObject a q).setConn i { s.conn i with popStream := stream }) := by
  have conn := Server.conn_setObject_setConn a q { s.conn i with popStream := stream } there
  have off : readerOn a { s.conn i with popStream := stream } = none :=
    readerOn_none (by rw [closed]; simp)
  have row := conn_row there
  refine
    { held := held
      parts := ⟨?_, view_set_same _ row rfl, ok, ?_⟩
      off := by rw [conn]; rw [closed]; simp
      writer := by rw [conn]; rfl
      conns := le_of_eq List.length_set.symm
      made := le_of_eq List.length_set.symm
      names := fun _ found => found }
  · obtain ⟨readers, left, left'⟩ := view_set (readerOn a) row
    have after := left' { s.conn i with popStream := stream }
    rw [off] at after
    rw [readerOn_open held] at left
    exact left.trans (List.Perm.cons _ after.symm)
  · have object : ((s.setObject a q).setConn i { s.conn i with popStream := stream }).object a = q :=
      Server.object_setObject_self q made
    exact pop.trans (congrArg Except.ok object.symm)

theorem parted_popClose {erase ok : Bool} (there : i < s.conns.length)
    (made : a < s.objects.length) (held : (s.conn i).popStream.queue = some a)
    (close : s.popClose i erase ok = .ok t) : Parted i a erase s t := by
  rcases Server.popClose_ok close with ⟨closed, -⟩ | ⟨b, q, isOpen, pop, rfl⟩
  · cases held.symm.trans closed
  · obtain rfl := Option.some.inj (held.symm.trans isOpen)
    exact parted_end there made held pop rfl

theorem parted_drop {ok : Bool} (there : i < s.conns.length) (made : a < s.objects.length)
    (held : (s.conn i).popStream.queue = some a)
    (pushOff : (s.conn i).pushStream.queue ≠ some a) : Parted i a false s (s.drop i ok) := by
  have first : Spares i a s (s.dropPush i ok) := spares_dropPush there pushOff
  have there' : i < (s.dropPush i ok).conns.length := first.there there
  have held' : ((s.dropPush i ok).conn i).popStream.queue = some a := by
    rw [first.stream held]
    exact held
  have drop : (s.dropPush i ok).dropPop i = ((s.dropPush i ok).setObject a
      (((s.dropPush i ok).object a).putBack ((s.dropPush i ok).conn i).popStream.id).wakeUp).setConn
        i { (s.dropPush i ok).conn i with popStream := {} } := by
    rw [Server.dropPop, held']
    simp only
    rw [IQStream.destruct_open (by rw [held']; rfl)]
  have ends : Parted i a false (s.dropPush i ok) ((s.dropPush i ok).dropPop i) := by
    rw [drop]
    exact parted_end there' (lt_of_lt_of_le made first.made) held'
      (Queue.popEnd_return _ _ _ true) rfl
  refine (first.parted held ends).spares (spares_closed (ends.there there') ends.off ?_)
  exact writerOn_iff.mp (ends.writer.trans (writerOn_iff.mpr (first.pushOff pushOff)))

/-- What an event of connection `i` may do to the queue at `a`. -/
inductive Frames (i a : ℕ) (ends : Bool → Prop) (s s' : Server) : Prop where
  | spared (spares : Spares i a s s')
  | parted {erase : Bool} (why : ends erase) (parted : Parted i a erase s s')

def Closes (req : Request) (erase : Bool) : Prop :=
  (req.getClose = true ∨ req.getAbort = true) ∧ erase = req.getClose

structure LeftByGet (i a : ℕ) (ends : Bool → Prop) (s s' : Server) : Prop where
  frames : Frames i a ends s s'
  off : Serving (s'.conn i) → (s'.conn i).popStream.queue ≠ some a

theorem gets_refused {ends : Bool → Prop} (there : i < s.conns.length) (text : Bytes) :
    LeftByGet i a ends s (s.reply i text .hangUp) :=
  ⟨.spared (spares_reply there _ _),
    fun serving => absurd serving (not_serving_dying (dying_reply there text))⟩

theorem get_frames (there : i < s.conns.length) (made : a < s.objects.length)
    (other : s.queues.lookup (s.conn i).req.queue ≠ some a)
    (pushOff : (s.conn i).pushStream.queue ≠ some a) (run : s.get i env = .ok s') :
    LeftByGet i a (Closes (s.conn i).req) s s' := by
  unfold Server.get at run
  dsimp only at run
  split at run
  · rw [← Except.ok.inj run]
    exact gets_refused there _
  split at run
  · rw [← Except.ok.inj run]
    exact gets_refused there _
  split at run
  case isTrue asked =>
    split at run
    · rw [← Except.ok.inj run]
      exact gets_refused there _
    case h_2 t close =>
      obtain ⟨there', stream, conn⟩ := conn_popClose there close
      have req : (t.conn i).req = (s.conn i).req := by rw [conn]
      have push : (t.conn i).pushStream.queue ≠ some a := by rw [conn]; exact pushOff
      have queues : t.queues = s.queues := by
        rcases Server.popClose_ok close with ⟨-, rfl⟩ | ⟨b, q, -, -, rfl⟩ <;> rfl
      have other' : t.queues.lookup (t.conn i).req.queue ≠ some a := by
        rw [queues, req]
        exact other
      by_cases held : (s.conn i).popStream.queue = some a
      · have parted := parted_popClose there made held close
        have rest := spares_getPop there' (lt_of_lt_of_le made parted.made) other' parted.off push run
        refine ⟨.parted ⟨?_, rfl⟩ (parted.spares rest), fun _ => rest.popOff parted.off⟩
        rcases Bool.or_eq_true _ _ ▸ asked with abort | close
        · exact .inr abort
        · exact .inl close
      · have first := spares_popClose there held close
        have rest := first.trans (spares_getPop there' (lt_of_lt_of_le made first.made) other'
          (first.popOff held) push run)
        exact ⟨.spared rest, fun _ => rest.popOff held⟩
  case isFalse =>
    split at run
    · rw [← Except.ok.inj run]
      exact gets_refused there _
    case isFalse closed =>
      have off : (s.conn i).popStream.queue ≠ some a := by
        intro isOpen
        rw [isOpen] at closed
        exact closed rfl
      have spares := spares_getPop there made other off pushOff run
      exact ⟨.spared spares, fun _ => spares.popOff off⟩

/-! The event that reads the request. -/

theorem Frames.after {ends : Bool → Prop} (spares : Spares i a s t) (frames : Frames i a ends t u) :
    Frames i a ends s u := by
  cases frames with
  | spared rest => exact .spared (spares.trans rest)
  | parted why parted =>
    have held : (s.conn i).popStream.queue = some a := by
      by_contra off
      exact spares.popOff off parted.held
    exact .parted why (spares.parted held parted)

theorem Frames.pushOff {ends : Bool → Prop} (frames : Frames i a ends s t)
    (off : (s.conn i).pushStream.queue ≠ some a) : (t.conn i).pushStream.queue ≠ some a := by
  cases frames with
  | spared spares => exact spares.pushOff off
  | parted _ parted => exact writerOn_iff.mp (parted.writer.trans (writerOn_iff.mpr off))

/-- The connection is at work on a request for the queue `q`, and not on the queue at `a`. -/
structure Bound (q : Bytes) (a : ℕ) (h : Handler) : Prop where
  queue : h.pending = .closed ∨ h.req.queue = q
  push : h.pushStream.queue ≠ some a
  serving : Serving h → h.popStream.queue ≠ some a

def NamesQueues (req : Request) : Prop :=
  req.type = .set ∨ req.type = .get ∨ req.type = .destroy ∨ req.type = .flush

theorem Bound.of_answered {q : Bytes} {h h' : Handler} (answered : Answered h h')
    (same : h.req.queue = q) (push : h'.pushStream.queue ≠ some a)
    (serving : Serving h' → h'.popStream.queue ≠ some a) : Bound q a h' := by
  refine ⟨?_, push, serving⟩
  rcases answered with rfl | ⟨stream, text, next, rfl⟩ | ⟨stream, b, node, rfl⟩
  · exact .inl rfl
  · exact .inr same
  · exact .inr same

theorem bound_idle {q : Bytes} {h : Handler} (queue : h.pending = .closed ∨ h.req.queue = q)
    (push : h.pushStream.queue ≠ some a)
    (away : ∀ text, h.pending ≠ .write text .getOnWriteChunk) : Bound q a h := by
  refine ⟨queue, push, ?_⟩
  rintro ⟨text, serving⟩
  exact absurd serving (away text)

theorem bound_reply {text : Bytes} {next : Next} {q : Bytes} (there : i < s.conns.length)
    (same : (s.conn i).req.queue = q) (push : (s.conn i).pushStream.queue ≠ some a)
    (ends : next ≠ .getOnWriteChunk) : Bound q a ((s.reply i text next).conn i) := by
  rw [conn_reply there]
  exact bound_idle (.inr same) push (by simp [ends])

theorem conn_set (there : i < s.conns.length) (run : s.set i = .ok s') :
    ∃ stream n, s'.conn i = { s.conn i with pushStream := stream, pending := .readChunk n } := by
  obtain ⟨b, t, u, found, opened, rfl⟩ := Server.set_ok run
  obtain ⟨-, conns, -⟩ := calm_queueAt i found
  obtain ⟨there', -, stream, conn, -⟩ := conn_pushOpen (conns ▸ there) opened
  have same : t.conn i = s.conn i := Server.conn_congr conns i
  have after := conn_readNextChunk there'
  rw [conn, same] at after
  exact ⟨stream, _, after⟩

theorem conns_eraseQueue {recreate : Bool} (erase : s.eraseQueue name recreate = .ok t) :
    t.conns = s.conns := by
  rcases Server.eraseQueue_ok erase with rfl | ⟨b, -, rfl | rfl⟩ <;> rfl

theorem erase_frames {ends : Bool → Prop} {recreate : Bool} {msg : String}
    (there : i < s.conns.length) (made : a < s.objects.length)
    (other : s.queues.lookup (s.conn i).req.queue ≠ some a)
    (pushOff : (s.conn i).pushStream.queue ≠ some a)
    (erase : s.eraseQueue (s.conn i).req.queue recreate = .ok t) :
    Frames i a ends s (t.end_ i msg) ∧ Bound (s.conn i).req.queue a ((t.end_ i msg).conn i) := by
  have first : Spares i a s t := spares_eraseQueue made other erase
  have there' : i < t.conns.length := first.there there
  have same : t.conn i = s.conn i := Server.conn_congr (conns_eraseQueue erase) i
  exact ⟨.spared (first.trans (spares_reply there' _ _)),
    bound_reply there' (by rw [same]) (by rw [same]; exact pushOff) (by simp)⟩

theorem dispatch_frames (there : i < s.conns.length) (made : a < s.objects.length)
    (other : s.queues.lookup (s.conn i).req.queue ≠ some a)
    (pushOff : (s.conn i).pushStream.queue ≠ some a) (names : NamesQueues (s.conn i).req)
    (run : s.dispatch i env = .ok s') :
    Frames i a (fun erase => (s.conn i).req.type = .get ∧ Closes (s.conn i).req erase) s s' ∧
      Bound (s.conn i).req.queue a (s'.conn i) := by
  unfold Server.dispatch at run
  rcases names with type | type | type | type <;> rw [type] at run
  · have count := spares_stats i a s s.countSet.stats
    have spares := count.trans (spares_set (s := s.countSet) there made other run)
    obtain ⟨stream, n, conn⟩ := conn_set (s := s.countSet) there run
    exact ⟨.spared spares,
      bound_idle (by rw [conn]; exact .inr rfl) (spares.pushOff pushOff) (by simp [conn])⟩
  · have gets := get_frames (s := s.countGet) there made other pushOff run
    have count := spares_stats i a s s.countGet.stats
    have frames : Frames i a (fun erase => RequestType.get = .get ∧ Closes (s.conn i).req erase) s s' := by
      refine Frames.after count ?_
      cases gets.frames with
      | spared spares => exact .spared spares
      | parted why parted => exact .parted ⟨rfl, why⟩ parted
    rw [type]
    exact ⟨frames, .of_answered (answered_get (s := s.countGet) there run) rfl
      (frames.pushOff pushOff) gets.off⟩
  · obtain ⟨t, erase, rfl⟩ := Server.destroy_ok run
    exact erase_frames there made other pushOff erase
  · obtain ⟨t, erase, rfl⟩ := Server.flush_ok run
    exact erase_frames there made other pushOff erase

/-! The later events of the request. -/

def AtWork (h : Handler) : Prop := h.pending ≠ .readUntil ∧ h.pending ≠ .closed

def Departs (i : ℕ) (s : Server) (erase : Bool) : Prop :=
  erase = false ∧ (s.conn i).pending = .closed

theorem drop_frames {ok : Bool} (there : i < s.conns.length) (made : a < s.objects.length)
    (pushOff : (s.conn i).pushStream.queue ≠ some a) :
    Frames i a (Departs i (s.drop i ok)) s (s.drop i ok) := by
  by_cases held : (s.conn i).popStream.queue = some a
  · exact .parted ⟨rfl, by rw [conn_drop there]⟩ (parted_drop there made held pushOff)
  · exact .spared (spares_drop there held pushOff)

theorem bound_drop {ok : Bool} {q : Bytes} (there : i < s.conns.length) :
    Bound q a ((s.drop i ok).conn i) := by
  rw [conn_drop there]
  exact bound_idle (.inl rfl) (by simp) (by simp)

theorem took_bound {q : Bytes} (took : Took i env s s') (same : (s.conn i).req.queue = q)
    (push : (s'.conn i).pushStream.queue ≠ some a) : Bound q a (s'.conn i) := by
  cases took with
  | failed conn => exact bound_idle (by rw [conn]; exact .inr same) push (by simp [conn])
  | more conn => exact bound_idle (by rw [conn]; exact .inr same) push (by simp [conn])
  | stored isOpen conn =>
    exact bound_idle (by rw [conn]; exact .inr same) push (by simp [conn])

variable {event : ServerEvent} {q : Bytes} {n : ℕ}

theorem reading_frames (steady : Steady s) (made : a < s.objects.length)
    (bound : Bound q a (s.conn i)) (reading : (s.conn i).pending = .readChunk n)
    (reacts : Reacts i n s event s') :
    Frames i a (Departs i s') s s' ∧ Bound q a (s'.conn i) := by
  have there : i < s.conns.length := Server.conn_there (by simp [reading])
  have same : (s.conn i).req.queue = q := bound.queue.resolve_left (by simp [reading])
  cases reacts with
  | nothing => exact ⟨.spared (.refl i a s), bound⟩
  | bytes room =>
    refine ⟨.spared (spares_setConn there rfl rfl), ?_⟩
    rw [Server.conn_setConn_self _ there]
    exact bound_idle (.inr same) bound.push (by simp)
  | @chunk env enough =>
    have spares : Spares i a s (s.setOnReadChunk i env) := spares_setOnReadChunk there bound.push
    have took : Took i env s (s.setOnReadChunk i env) := setOnReadChunk_took there
      (fun b isOpen => steady.sited.held i b (.inr isOpen)) (steady.receives.reading i n reading)
      enough
    exact ⟨.spared spares, took_bound took same (spares.pushOff bound.push)⟩
  | failed missing => exact ⟨drop_frames there made bound.push, bound_drop there⟩

theorem writing_frames {bytes : Bytes} {next : Next} (awake : Awake none s)
    (made : a < s.objects.length) (bound : Bound q a (s.conn i))
    (writing : (s.conn i).pending = .write bytes next) (mine : serving s event = some i)
    (step : s.Step event s') : Frames i a (Departs i s') s s' ∧ Bound q a (s'.conn i) := by
  have there : i < s.conns.length := Server.conn_there (by simp [writing])
  have same : (s.conn i).req.queue = q := bound.queue.resolve_left (by simp [writing])
  rcases step_writing awake writing mine step with ⟨env, rfl, rfl⟩ | ⟨env, rfl, rfl⟩ | ⟨-, rfl⟩
  · unfold Server.writeDone
    rw [writing]
    cases next with
    | readRequest =>
      refine ⟨.spared (spares_setPending there _), ?_⟩
      rw [Server.setPending, Server.conn_setConn_self _ there]
      exact bound_idle (.inr same) bound.push (by simp)
    | getOnWriteChunk =>
      have off := bound.serving ⟨bytes, writing⟩
      have spares : Spares i a s (s.getOnWriteChunk i env) :=
        spares_getOnWriteChunk there off bound.push
      exact ⟨.spared spares, .of_answered (answered_getOnWriteChunk there env) same
        (spares.pushOff bound.push) fun _ => spares.popOff off⟩
    | hangUp => exact ⟨drop_frames there made bound.push, bound_drop there⟩
  · exact ⟨drop_frames there made bound.push, bound_drop there⟩
  · exact ⟨.spared (.refl i a _), bound⟩

theorem step_waiting {node : ℕ} (awake : Awake none s)
    (waiting : (s.conn i).pending = .wait b node) (mine : serving s event = some i)
    (run : s.Step event s') :
    s' = s ∨ ∃ w q env, w ∈ (s.object b).waiters ∧ w.cb = i ∧
      ((s.setObject b q).get i env = .ok s' ∨ s' = (s.setObject b q).end_ i "END\r\n") := by
  cases event with
  | accept | expire | recv | readDone | readFailed | writeDone | writeFailed =>
    exact .inl (step_unawaited awake mine (by rw [waiting]; rfl) run)
  | callback c node' env =>
    obtain ⟨w, due, rfl⟩ := Option.map_eq_some_iff.mp mine
    have mem := (dueWaiter_mem due).1
    have pending := (awake.waits c w mem).2.pending
    obtain ⟨rfl, -⟩ := Pending.wait.inj (waiting.symm.trans pending)
    have run : s.callback b node' env = .ok s' := run
    simp only [Server.callback, due] at run
    refine .inr ⟨w, ((s.object b).waiterWakeup node').1, env, mem, rfl, ?_⟩
    split at run
    · exact .inl run
    · exact .inr (Except.ok.inj run).symm

theorem waiting_frames {node : ℕ} (awake : Awake none s) (made : a < s.objects.length)
    (bound : Bound q a (s.conn i)) (differs : name ≠ q) (found : s.queues.lookup name = some a)
    (waiting : (s.conn i).pending = .wait b node) (mine : serving s event = some i)
    (step : s.Step event s') : Frames i a (Departs i s') s s' ∧ Bound q a (s'.conn i) := by
  have there : i < s.conns.length := Server.conn_there (by simp [waiting])
  have same : (s.conn i).req.queue = q := bound.queue.resolve_left (by simp [waiting])
  have other : s.queues.lookup (s.conn i).req.queue ≠ some a := by
    intro found'
    exact differs ((awake.distinct _ _ _ found found').trans same)
  rcases step_waiting awake waiting mine step with rfl | ⟨w, q', env, mem, rfl, run⟩
  · exact ⟨.spared (.refl i a _), bound⟩
  have waits := (awake.waits b w mem).2
  have ne : b ≠ a := by
    rintro rfl
    exact differs ((waits.name name found).trans same)
  have first : Spares w.cb a s (s.setObject b q') := spares_setObject q' ne
  rcases run with run | rfl
  · -- nothing is open while the connection waits
    have off : (s.conn w.cb).popStream.queue ≠ some a := by
      rw [waits.closed]
      simp
    have gets := get_frames (s := s.setObject b q') there (lt_of_lt_of_le made first.made) other
      bound.push run
    cases gets.frames with
    | spared spares =>
      have both := first.trans spares
      exact ⟨.spared both, .of_answered (answered_get (s := s.setObject b q') there run) same
        (both.pushOff bound.push) gets.off⟩
    | parted why parted => exact absurd parted.held (first.popOff off)
  · exact ⟨.spared (first.trans (spares_reply (s := s.setObject b q') there _ _)),
      bound_reply (s := s.setObject b q') there same bound.push (by simp)⟩

theorem own_frames (awake : Awake none s) (steady : Steady s) (bound : Bound q a (s.conn i))
    (differs : name ≠ q) (found : s.queues.lookup name = some a) (work : AtWork (s.conn i))
    (mine : serving s event = some i) (step : s.Step event s') :
    Frames i a (Departs i s') s s' ∧ Bound q a (s'.conn i) := by
  have made := awake.made name a found
  cases pending : (s.conn i).pending with
  | readUntil => exact absurd pending work.1
  | closed => exact absurd pending work.2
  | readChunk n =>
    exact reading_frames steady made bound pending (step_reacts awake pending mine step)
  | write bytes next => exact writing_frames awake made bound pending mine step
  | wait b node => exact waiting_frames awake made bound differs found pending mine step

/-! Whole requests. -/

/-- What happens to the queue at `a` under its name: nothing, or the item that connection `i`
has left open there is ended. -/
inductive QueueEffect (i a : ℕ) (name : Bytes) (ends : Bool → Prop) (s s' : Server) : Prop where
  | same (found : s'.queues.lookup name = some a) (config : config s' a = config s a)
  | ended {erase : Bool} (why : ends erase) (found : s'.queues.lookup name = some a)
      (held : (s.conn i).popStream.queue = some a)
      (parts : Parts (s.conn i).popStream erase (config s a) (config s' a))

theorem Frames.named {ends : Bool → Prop} (frames : Frames i a ends s s')
    (found : s.queues.lookup name = some a) : s'.queues.lookup name = some a := by
  cases frames with
  | spared spares => exact spares.names name found
  | parted _ parted => exact parted.names name found

theorem Frames.effect {ends : Bool → Prop} (frames : Frames i a ends s s')
    (found : s.queues.lookup name = some a) : QueueEffect i a name ends s s' := by
  have named := frames.named found
  cases frames with
  | spared spares => exact .same named spares.config
  | parted why parted => exact .ended why named parted.held parted.parts

def Own (i : ℕ) (s : Server) (event : ServerEvent) : Prop :=
  serving s event = some i ∨
    ∃ b node, event = .expire b node ∧ ∃ w ∈ (s.object b).waiters, w.node = node ∧ w.cb = i

theorem expire_frames {node : ℕ} {w : Waiter} (awake : Awake none s) (bound : Bound q a (s.conn i))
    (differs : name ≠ q) (found : s.queues.lookup name = some a)
    (mem : w ∈ (s.object b).waiters) (cb : w.cb = i) :
    Spares i a s (s.setObject b ((s.object b).expireTimer node)) := by
  have waits := (awake.waits b w mem).2
  rw [cb] at waits
  have same : (s.conn i).req.queue = q := bound.queue.resolve_left (by simp [waits.pending])
  refine spares_setObject _ ?_
  rintro rfl
  exact differs ((waits.name name found).trans same)

theorem event_frames (awake : Awake none s) (steady : Steady s) (bound : Bound q a (s.conn i))
    (differs : name ≠ q) (found : s.queues.lookup name = some a) (work : AtWork (s.conn i))
    (own : Own i s event) (step : s.Step event s') :
    Frames i a (Departs i s') s s' ∧ Bound q a (s'.conn i) := by
  rcases own with mine | ⟨b, node, rfl, w, mem, -, cb⟩
  · exact own_frames awake steady bound differs found work mine step
  · obtain rfl := Except.ok.inj step
    exact ⟨.spared (expire_frames awake bound differs found mem cb), bound⟩

structure Busy (i : ℕ) (s : Server) (event : ServerEvent) (s' : Server) : Prop where
  work : AtWork (s.conn i)
  life : Life s (.event event) s'

/-- An event of another connection leaves the queue alone. -/
structure Alone (i a : ℕ) (name : Bytes) (s : Server) (event : ServerEvent) (s' : Server) : Prop
    extends Busy i s event s' where
  others : ¬Own i s event → s'.queues.lookup name = s.queues.lookup name ∧ config s' a = config s a

structure Calmly (q : Bytes) (i a : ℕ) (name : Bytes) (s : Server) : Prop where
  awake : Awake none s
  steady : Steady s
  made : a < s.objects.length
  bound : s.queues.lookup name = some a → Bound q a (s.conn i)

theorem busy_calmly (differs : name ≠ q) (calmly : Calmly q i a name s)
    (busy : Busy i s event s') : Calmly q i a name s' := by
  obtain ⟨awake, steady, made, bound⟩ := calmly
  obtain ⟨work, step, fits⟩ := busy
  have old := step_oldNames awake made step
  have there : i < s.conns.length := by
    by_contra beyond
    exact work.2 (by rw [Server.conn_beyond (by omega)])
  refine ⟨step_awake s event s' awake step, (life_steady s _ s' ⟨awake, steady⟩ (.event step fits)).2,
    old.made, fun found' => ?_⟩
  have found := old.names name found'
  by_cases mine : serving s event = some i
  · exact (own_frames awake steady (bound found) differs found work mine step).2
  · rw [step_others awake step there mine]
    exact bound found

inductive Carried (i a : ℕ) (ends : Bool → Prop) (s t : Server) : Prop where
  | same (config : config t a = config s a)
      (reader : readerOn a (t.conn i) = readerOn a (s.conn i))
  | ended {erase : Bool} (why : ends erase ∨ Departs i t erase)
      (held : (s.conn i).popStream.queue = some a)
      (parts : Parts (s.conn i).popStream erase (config s a) (config t a))
      (off : (t.conn i).popStream.queue ≠ some a)

theorem Carried.frames {ends : Bool → Prop} (carried : Carried i a ends s t)
    (work : AtWork (t.conn i)) (frames : Frames i a (Departs i u) t u) : Carried i a ends s u := by
  cases carried with
  | same config reader =>
    cases frames with
    | spared spares => exact .same (spares.config.trans config) (spares.reader.trans reader)
    | parted why parted =>
      rw [readerOn_open parted.held] at reader
      unfold readerOn at reader
      split at reader
      case isFalse => cases reader
      case isTrue held =>
        have parts := parted.parts
        rw [config, Option.some.inj reader] at parts
        exact .ended (.inr why) held parts parted.off
  | ended why held parts off =>
    have why : ends _ := why.resolve_right fun leaves => work.2 leaves.2
    cases frames with
    | spared spares =>
      rw [← spares.config] at parts
      exact .ended (.inl why) held parts (spares.popOff off)
    | parted _ parted => exact absurd parted.held off

theorem Carried.others {ends : Bool → Prop} (carried : Carried i a ends s t)
    (conn : u.conn i = t.conn i) (same : config u a = config t a) : Carried i a ends s u := by
  cases carried with
  | same config reader => exact .same (same.trans config) (by rw [conn]; exact reader)
  | ended why held parts off =>
    rw [← same] at parts
    refine .ended ?_ held parts (by rw [conn]; exact off)
    rw [Departs, conn]
    exact why

theorem alone_carried {ends : Bool → Prop} (differs : name ≠ q)
    (h : Calmly q i a name t ∧ t.queues.lookup name = some a ∧ Carried i a ends s t)
    (alone : Alone i a name t event u) :
    Calmly q i a name u ∧ u.queues.lookup name = some a ∧ Carried i a ends s u := by
  obtain ⟨calmly, registered, carried⟩ := h
  have next := busy_calmly differs calmly alone.toBusy
  obtain ⟨⟨work, step, -⟩, others⟩ := alone
  by_cases own : Own i t event
  · have frames := (event_frames calmly.awake calmly.steady (calmly.bound registered) differs
      registered work own step).1
    exact ⟨next, frames.named registered, carried.frames work frames⟩
  · obtain ⟨names, same⟩ := others own
    have there : i < t.conns.length := by
      by_contra beyond
      exact work.2 (by rw [Server.conn_beyond (by omega)])
    have conn := step_others calmly.awake step there fun mine => own (.inl mine)
    exact ⟨next, names.trans registered, carried.others conn same⟩

theorem line_frames {req : Request} (awake : Awake none s)
    (pushOff : (s.conn i).pushStream.queue ≠ some a)
    (asked : parsed s i (.readDone i env) = some req) (names : NamesQueues req)
    (step : s.Step (.readDone i env) s') (differs : name ≠ req.queue)
    (found : s.queues.lookup name = some a) :
    Frames i a (fun erase => req.type = .get ∧ Closes req erase) s s' ∧
      Bound req.queue a (s'.conn i) := by
  obtain ⟨reading, n, -, same⟩ := step_parsed asked
  have there : i < s.conns.length := Server.conn_there (by simp [reading])
  have conn : (s.setConn i { s.conn i with
      req := req, inBuf := (s.conn i).inBuf.drop n }).conn i =
      { s.conn i with req := req, inBuf := (s.conn i).inBuf.drop n } :=
    Server.conn_setConn_self _ there
  have run := same.symm.trans step
  have first : Spares i a s (s.setConn i { s.conn i with
      req := req, inBuf := (s.conn i).inBuf.drop n }) := spares_setConn there rfl rfl
  have queues : (s.setConn i { s.conn i with
      req := req, inBuf := (s.conn i).inBuf.drop n }).queues = s.queues := rfl
  generalize s.setConn i { s.conn i with req := req, inBuf := (s.conn i).inBuf.drop n } = t
    at conn run first queues
  have req_eq : (t.conn i).req = req := by rw [conn]
  have other : t.queues.lookup (t.conn i).req.queue ≠ some a := by
    rw [queues, req_eq]
    exact fun found' => differs (awake.distinct _ _ _ found found')
  obtain ⟨frames, bound⟩ := dispatch_frames (first.there there)
    (lt_of_lt_of_le (awake.made name a found) first.made) other (first.pushOff pushOff)
    (req_eq.symm ▸ names) run
  rw [req_eq] at frames bound
  exact ⟨frames.after first, bound⟩

/-- A request leaves alone every queue that it does not name, but for the item that its
connection has left open. Each event of the request does so, whatever other connections do
in between; and so does the whole of it, when they leave the queue alone. -/
theorem request_spares_others {chunkSize : ℕ} {dataPath : Bytes} {req : Request}
    (pos : 0 < chunkSize) (reach : Reachable Life (.empty chunkSize dataPath) s)
    (asked : parsed s i (.readDone i env) = some req) (names : NamesQueues req)
    (life : Life s (.event (.readDone i env)) s') (differs : name ≠ req.queue)
    (found : s.queues.lookup name = some a) :
    (∀ events t, Runs (Busy i) s' events t → t.queues.lookup name = some a →
      ∀ event t', AtWork (t.conn i) → Own i t event → Life t (.event event) t' →
        QueueEffect i a name (Departs i t') t t') ∧
    ∀ events t, Runs (Alone i a name) s' events t →
      QueueEffect i a name (fun erase => req.type = .get ∧ Closes req erase ∨ Departs i t erase)
        s t := by
  obtain ⟨awake, steady⟩ := reachable_steady pos reach
  obtain ⟨awake', steady'⟩ := reachable_steady pos (reach.next life)
  have pushOff : (s.conn i).pushStream.queue ≠ some a := by
    obtain ⟨reading, -⟩ := step_parsed asked
    rw [reachable_shut pos reach i (by simp [Free, reading])]
    simp
  obtain ⟨step, -⟩ := life
  obtain ⟨frames, bound⟩ := line_frames awake pushOff asked names step differs found
  have start : Calmly req.queue i a name s' :=
    ⟨awake', steady', (step_oldNames awake (awake.made name a found) step).made, fun _ => bound⟩
  constructor
  · intro events t runs registered event t' work own life
    have calmly := runs.preserves (P := Calmly req.queue i a name)
      (fun _ _ _ _ calmly busy => busy_calmly differs calmly busy) (fun _ _ => trivial) start
    obtain ⟨step, -⟩ := life
    exact (event_frames calmly.awake calmly.steady (calmly.bound registered) differs registered work
      own step).1.effect registered
  · intro events t runs
    have carried : Carried i a (fun erase => req.type = .get ∧ Closes req erase) s s' := by
      cases frames with
      | spared spares => exact .same spares.config spares.reader
      | parted why parted => exact .ended (.inl why) parted.held parted.parts parted.off
    have found' := frames.named found
    have stays := runs.preserves
      (P := fun t => Calmly req.queue i a name t ∧ t.queues.lookup name = some a ∧
        Carried i a (fun erase => req.type = .get ∧ Closes req erase) s t)
      (fun t event u _ h alone => alone_carried differs h alone) (fun _ _ => trivial)
      ⟨start, found', carried⟩
    obtain ⟨-, registered, carried⟩ := stays
    cases carried with
    | same config reader => exact .same registered config
    | ended why held parts off => exact .ended why registered held parts

def working (pending : Pending) : Bool := pending ≠ .readUntil && pending ≠ .closed

theorem runs_alone {events : List ServerEvent}
    (run : during working i (fun _ _ _ _ => ()) (s, ()) events = some (t, ()))
    (mine : ∀ event ∈ events, ∀ u, serving u event = some i) :
    Runs (Alone i a name) s events t := by
  have runs : Runs (Alone i a name) s (events.map id) t :=
      runs_during id Prod.fst (fun event mem s _ t work life => by
    rw [working, Bool.and_eq_true, decide_eq_true_iff, decide_eq_true_iff] at work
    exact ⟨⟨work, life⟩, fun other => absurd (.inl (mine event mem s)) other⟩) run
  rwa [List.map_id] at runs

def storeInP : List ServerEvent :=
  let env : Env := ⟨fun _ => true, 0, 0, 0⟩
  [.accept, .recv 0 (ascii "set p 0 0 1\r\n"), .readDone 0 env, .recv 0 (ascii "a\r\n"),
    .readDone 0 env, .writeDone 0 env]

theorem request_spares_others_set : ∃ s s' t,
    Reachable Life (.empty 16 [47]) s ∧ s.queues.lookup (ascii "p") = some 0 ∧
    Life s (.event (.readDone 0 ⟨fun _ => true, 0, 0, 0⟩)) s' ∧
    Runs (Alone 0 0 (ascii "p")) s' [.recv 0 (ascii "b\r\n"),
      .readDone 0 ⟨fun _ => true, 0, 0, 0⟩, .writeDone 0 ⟨fun _ => true, 0, 0, 0⟩] t ∧
    t.queues.lookup (ascii "q") = some 1 ∧ ServerMoves.config t 0 = ServerMoves.config s 0 := by
  have facts : (fitting (.empty 16 [47]) (storeInP ++ [.recv 0 (ascii "set q 0 0 1\r\n")])).bind
      (fun s => (fitting s [.readDone 0 ⟨fun _ => true, 0, 0, 0⟩]).bind fun s' =>
        (during working 0 (fun _ _ _ _ => ()) (s', ()) [.recv 0 (ascii "b\r\n"),
          .readDone 0 ⟨fun _ => true, 0, 0, 0⟩, .writeDone 0 ⟨fun _ => true, 0, 0, 0⟩]).map
        fun p =>
          decide ((parsed s 0 (.readDone 0 ⟨fun _ => true, 0, 0, 0⟩)).map
            (fun req => (req.type, req.queue)) = some (.set, ascii "q")) &&
          decide (s.queues.lookup (ascii "p") = some 0) &&
          decide ((s.conn 0).popStream.queue = none) &&
          decide (p.1.queues.lookup (ascii "q") = some 1)) = some true := by decide
  simp only [Option.bind_eq_some_iff, Option.map_eq_some_iff, Bool.and_eq_true, decide_eq_true_iff,
    and_assoc, Prod.mk.injEq] at facts
  obtain ⟨s, before, s', line, ⟨t, ⟨⟩⟩, after, ⟨req, asked, type, queue⟩, found, closed, last⟩ :=
    facts
  obtain ⟨_, life, same⟩ := fitting_cons line
  obtain rfl := Option.some.inj same
  have reach : Reachable Life (.empty 16 [47]) s := reachable_fitting .refl before
  have runs : Runs (Alone 0 0 (ascii "p")) _ _ t := runs_alone after (by simp [serving])
  refine ⟨s, _, t, reach, found, life, runs, last, ?_⟩
  have differs : ascii "p" ≠ req.queue := by
    rw [queue]
    decide
  cases (request_spares_others (by decide) reach asked (.inl type) life differs found).2 _ t runs with
  | same _ config => exact config
  | ended why _ held parts => cases held.symm.trans closed

def openP : List ServerEvent :=
  let env : Env := ⟨fun _ => true, 0, 0, 0⟩
  storeInP ++ [.recv 0 (ascii "get p/open\r\n"), .readDone 0 env, .writeDone 0 env]

/-- A request on `q` changes the queue `p`: `get q/close` erases the item that the connection
holds there, and a `set` with a bad data chunk, which ends the connection, gives it back. -/
theorem request_changes_other : ∃ s req req' t t',
    Reachable Life (.empty 16 [47]) s ∧ s.queues.lookup (ascii "p") = some 0 ∧
    (s.object 0).contents.lookup ⟨.queue, 0⟩ = some (ascii "a") ∧ (s.object 0).returned = ∅ ∧
    (parsed (s.recv 0 (ascii "get q/close\r\n")) 0 (.readDone 0 ⟨fun _ => true, 0, 0, 0⟩) =
      some req ∧ req.queue = ascii "q" ∧
    fitting s [.recv 0 (ascii "get q/close\r\n"), .readDone 0 ⟨fun _ => true, 0, 0, 0⟩,
      .writeDone 0 ⟨fun _ => true, 0, 0, 0⟩] = some t ∧
    t.queues.lookup (ascii "p") = some 0 ∧ (t.object 0).contents.lookup ⟨.queue, 0⟩ = none) ∧
    (parsed (s.recv 0 (ascii "set q 0 0 1\r\n")) 0 (.readDone 0 ⟨fun _ => true, 0, 0, 0⟩) =
      some req' ∧ req'.queue = ascii "q" ∧
    fitting s [.recv 0 (ascii "set q 0 0 1\r\n"), .readDone 0 ⟨fun _ => true, 0, 0, 0⟩,
      .recv 0 (ascii "bad"), .readDone 0 ⟨fun _ => true, 0, 0, 0⟩,
      .writeDone 0 ⟨fun _ => true, 0, 0, 0⟩] = some t' ∧
    t'.queues.lookup (ascii "p") = some 0 ∧ (t'.object 0).returned = {0}) := by
  have facts : (fitting (.empty 16 [47]) openP).map (fun s =>
      decide (s.queues.lookup (ascii "p") = some 0) &&
      decide ((s.object 0).contents.lookup ⟨.queue, 0⟩ = some (ascii "a")) &&
      decide ((s.object 0).returned = ∅) &&
      decide ((parsed (s.recv 0 (ascii "get q/close\r\n")) 0
        (.readDone 0 ⟨fun _ => true, 0, 0, 0⟩)).map Request.queue = some (ascii "q")) &&
      decide ((fitting s [.recv 0 (ascii "get q/close\r\n"),
        .readDone 0 ⟨fun _ => true, 0, 0, 0⟩, .writeDone 0 ⟨fun _ => true, 0, 0, 0⟩]).map (fun t =>
          decide (t.queues.lookup (ascii "p") = some 0) &&
          decide ((t.object 0).contents.lookup ⟨.queue, 0⟩ = none)) = some true) &&
      decide ((parsed (s.recv 0 (ascii "set q 0 0 1\r\n")) 0
        (.readDone 0 ⟨fun _ => true, 0, 0, 0⟩)).map Request.queue = some (ascii "q")) &&
      decide ((fitting s [.recv 0 (ascii "set q 0 0 1\r\n"),
        .readDone 0 ⟨fun _ => true, 0, 0, 0⟩, .recv 0 (ascii "bad"),
        .readDone 0 ⟨fun _ => true, 0, 0, 0⟩, .writeDone 0 ⟨fun _ => true, 0, 0, 0⟩]).map (fun t =>
          decide (t.queues.lookup (ascii "p") = some 0) &&
          decide ((t.object 0).returned = {0})) = some true)) = some true := by decide
  simp only [Option.map_eq_some_iff, Bool.and_eq_true, decide_eq_true_iff, and_assoc] at facts
  obtain ⟨s, before, found, stored, returned, ⟨req, asked, queue⟩, ⟨t, close, found', gone⟩,
    ⟨req', asked', queue'⟩, t', bad, found'', back⟩ := facts
  exact ⟨s, req, req', t, t', reachable_fitting .refl before, found,
    stored, returned, ⟨asked, queue, close, found', gone⟩, asked', queue', bad, found'', back⟩

end Darner.RequestFrame
