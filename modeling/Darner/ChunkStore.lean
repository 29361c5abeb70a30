import Darner.ReliableFetch
import Darner.SetProgress

/-! The chunks in the journals of a server. Chunks are put by the set loop and deleted
by three others: the erasing `pop_end` of a get, the cancel of an unfinished push, and
the destructor of the push stream. As long as the journal calls succeed, a chunk is in
the journal if and only if it belongs to a stored item or to an unfinished push. -/

namespace Darner.ChunkStore
open OrderedStore LabelledRuns StreamMoves QueueRecovery ChunkLayout CrashConsistency ReadProgress
open ServerMoves ServerWaiters FetchDeeds FetchEvents ReliableFetch ServerCalls SetProgress

def OfItem (image : Image) (n : ℕ) : Prop :=
  ∃ id header, HeaderAt image id header ∧ n ∈ header.range

def Pushed (address : ℕ) (stream : OQStream) (n : ℕ) : Prop :=
  stream.queue = some address ∧ stream.header.end_ > 1 ∧
    n ∈ Finset.Ico stream.header.beg stream.chunkPos

/-- Every chunk belongs to an item or to an unfinished push. -/
def Tight (s : Server) (address : ℕ) : Prop :=
  ∀ n, (⟨.chunk, n⟩ : Key) ∈ (s.object address).contents →
    OfItem (s.object address).contents n ∨ ∃ j, Pushed address (s.conn j).pushStream n

/-! One call of a push stream. -/

/-- After a call of the stream every chunk belongs to an item or to the stream, but for
those that were there before and belonged to neither. -/
def Accounts (address : ℕ) (q : Queue) (stream : OQStream) (q' : Queue) (stream' : OQStream) :
    Prop :=
  ∀ n, (⟨.chunk, n⟩ : Key) ∈ q'.contents → OfItem q'.contents n ∨ Pushed address stream' n ∨
    (⟨.chunk, n⟩ : Key) ∈ q.contents ∧ ¬OfItem q.contents n ∧ ¬Pushed address stream n

variable {address : ℕ} {q q' q'' : Queue} {stream stream' stream'' : OQStream}

theorem accounts_of
    (chunks : ∀ n, (⟨.chunk, n⟩ : Key) ∈ q'.contents →
      (⟨.chunk, n⟩ : Key) ∈ q.contents ∨ Pushed address stream' n)
    (items : ∀ n, OfItem q.contents n → OfItem q'.contents n)
    (own : ∀ n, (⟨.chunk, n⟩ : Key) ∈ q'.contents → Pushed address stream n →
      OfItem q'.contents n ∨ Pushed address stream' n) : Accounts address q stream q' stream' := by
  intro n mem
  by_cases item : OfItem q.contents n
  · exact .inl (items n item)
  by_cases pushed : Pushed address stream n
  · rcases own n mem pushed with item | pushed
    · exact .inl item
    · exact .inr (.inl pushed)
  rcases chunks n mem with old | pushed
  · exact .inr (.inr ⟨old, item, pushed⟩)
  · exact .inr (.inl pushed)

theorem Accounts.refl (address : ℕ) (q : Queue) (stream : OQStream) :
    Accounts address q stream q stream :=
  accounts_of (fun _ => .inl) (fun _ => id) fun _ _ => .inr

theorem Accounts.trans (first : Accounts address q stream q' stream')
    (second : Accounts address q' stream' q'' stream'') :
    Accounts address q stream q'' stream'' := by
  intro n mem
  rcases second n mem with item | pushed | ⟨old, item, pushed⟩
  · exact .inl item
  · exact .inr (.inl pushed)
  · rcases first n old with item' | pushed' | rest
    · exact absurd item' item
    · exact absurd pushed' pushed
    · exact .inr (.inr rest)

theorem accounts_blank (contents : q'.contents = q.contents)
    (none : ∀ n, ¬Pushed address stream n) : Accounts address q stream q' stream' :=
  accounts_of (fun _ mem => .inl (contents ▸ mem)) (fun _ item => contents ▸ item)
    fun n _ pushed => absurd pushed (none n)

theorem ofItem_insert {image : Image} {id n : ℕ} {value : Bytes}
    (fresh : (⟨.queue, id⟩ : Key) ∉ image) (item : OfItem image n) :
    OfItem (image.insert ⟨.queue, id⟩ value) n := by
  obtain ⟨id', header, stored, inside⟩ := item
  refine ⟨id', header, (Layout.headerAt_insert_ne header ?_).mpr stored, inside⟩
  rintro rfl
  exact fresh stored.mem

theorem ofItem_chunk {image : Image} {m n : ℕ} {value : Bytes} :
    OfItem (image.insert ⟨.chunk, m⟩ value) n ↔ OfItem image n := by
  refine exists_congr fun id => exists_congr fun header => and_congr_left' ?_
  exact headerAt_congr header (Layout.lookup_queue_insert_chunk image id m value)

theorem mem_insert_queue {image : Image} {id n : ℕ} {value : Bytes} :
    (⟨.chunk, n⟩ : Key) ∈ image.insert ⟨.queue, id⟩ value ↔ (⟨.chunk, n⟩ : Key) ∈ image := by
  rw [mem_iff_lookup, Layout.lookup_chunk_insert_queue, ← mem_iff_lookup]

structure Fresh (q : Queue) : Prop where
  type : q.queueHead.type = .queue
  unused : (⟨.queue, q.queueHead.id⟩ : Key) ∉ q.contents

theorem contents_pushValue {value : Bytes} {sync ok : Bool} {id : ℕ} (fresh : Fresh q)
    (push : q.pushValue value sync ok = .ok (id, q')) :
    q'.contents = q.contents.insert ⟨.queue, q.queueHead.id⟩ value := by
  obtain ⟨-, rfl⟩ := Queue.pushValue_ok push
  exact contents_pushed fresh.type value sync

theorem accounts_store {chunk : Bytes} {stray : UInt8} {ok : Bool} (fresh : Fresh q)
    (isOpen : stream.queue = some address) (start : stream.header.end_ > 1 →
      stream.header.beg ≤ stream.chunkPos)
    (store : stream.store q chunk stray ok = .ok (stream', q')) :
    Accounts address q stream q' (stream'.advance chunk.length) := by
  rcases OQStream.store_ok store with ⟨single, id, push, rfl⟩ | ⟨multi, put, rfl⟩
  · have contents := contents_pushValue fresh push
    refine accounts_of (fun n mem => .inl ?_) (fun n item => ?_) fun n _ pushed => ?_
    · rw [contents] at mem
      exact mem_insert_queue.mp mem
    · rw [contents]
      exact ofItem_insert fresh.unused item
    · exact absurd pushed.2.1 (by omega)
  · have contents : q'.contents = q.contents.insert ⟨.chunk, stream'.chunkPos⟩ chunk := by
      rw [Queue.put_ok put]
      simp [Queue.contents]
    have begun := start multi
    refine accounts_of (fun n mem => ?_) (fun n item => ?_) fun n _ pushed => .inr ?_
    · rw [contents, mem_iff_lookup, lookup_insert_eq] at mem
      split at mem
      case isTrue here =>
        obtain rfl : n = stream'.chunkPos := by simpa using here
        exact .inr ⟨isOpen, multi, Finset.mem_Ico.mpr ⟨begun, Nat.lt_succ_self _⟩⟩
      case isFalse => exact .inl (mem_iff_lookup.mpr mem)
    · rw [contents]
      exact ofItem_chunk.mpr item
    · obtain ⟨-, -, inside⟩ := pushed
      obtain ⟨above, below⟩ := Finset.mem_Ico.mp inside
      exact ⟨isOpen, multi, Finset.mem_Ico.mpr ⟨above, Nat.lt_succ_of_lt below⟩⟩

theorem accounts_finish (ok : Bool) (fresh : stream.header.end_ > 1 → Fresh q)
    (fits : stream.header.end_ > 1 → stream.header.Fits) :
    Accounts address q stream (stream.finish q ok).2.2 (stream.finish q ok).2.1 := by
  rcases stream.finish_cases q ok with
    ⟨-, h⟩ | ⟨-, single, h⟩ | ⟨finished, multi, ⟨e, h⟩ | ⟨id, q', push, h⟩⟩
  · rw [h]
    exact .refl address q stream
  · rw [h]
    exact accounts_blank rfl fun n pushed => absurd pushed.2.1 (by omega)
  · rw [h]
    exact .refl address q stream
  · rw [h]
    have contents := contents_pushValue (fresh multi) push
    refine accounts_of (fun n mem => .inl ?_) (fun n item => ?_) fun n _ pushed => .inl ?_
    · rw [contents] at mem
      exact mem_insert_queue.mp mem
    · rw [contents]
      exact ofItem_insert (fresh multi).unused item
    · rw [contents]
      refine ⟨q.queueHead.id, stream.header, ?_, ?_⟩
      · exact Layout.headerAt_insert_self.mpr (Stored.ofValue_str (fits multi))
      · rw [Header.range, ← finished]
        exact pushed.2.2

theorem accounts_write {chunk : Bytes} {stray : UInt8} {io : Io} (fresh : Fresh q)
    (isOpen : stream.queue = some address)
    (start : stream.header.end_ > 1 → stream.header.beg ≤ stream.chunkPos)
    (fits : stream.header.end_ > 1 →
      ({ stream.header with size := stream.header.size + chunk.length } : Header).Fits) :
    Accounts address q stream (stream.write q chunk stray io).2.2
      (stream.write q chunk stray io).2.1 := by
  rcases stream.write_cases q chunk stray io with
    ⟨-, h⟩ | ⟨-, -, ⟨e, -, h⟩ | ⟨stream', q', store, h⟩⟩
  · rw [h]
    exact .refl address q stream
  · rw [h]
    exact .refl address q stream
  · rw [h]
    refine (accounts_store fresh isOpen start store).trans (accounts_finish (io 1) ?_ ?_)
    · intro multi
      rcases OQStream.store_ok store with ⟨single, id, -, rfl⟩ | ⟨-, put, rfl⟩
      · exact absurd multi (Nat.not_lt.mpr single)
      · -- the chunk is no entry
        rw [Queue.put_ok put]
        refine ⟨fresh.type, fun mem => fresh.unused ?_⟩
        rw [mem_iff_lookup] at mem ⊢
        simpa [Queue.contents, Layout.lookup_queue_insert_chunk] using mem
    · intro multi
      rcases OQStream.store_ok store with ⟨single, id, -, rfl⟩ | ⟨-, -, rfl⟩
      · exact absurd multi (Nat.not_lt.mpr single)
      · exact fits multi

theorem accounts_destruct (reserved : stream.header.end_ > 1 →
      ∀ n ∈ Finset.Ico stream.header.beg stream.chunkPos,
        (⟨.chunk, n⟩ : Key) ∈ stream.header.chunkKeys) :
    Accounts address q stream (stream.destruct q true) stream' := by
  by_cases isOpen : stream.queue.isSome
  case neg =>
    rw [OQStream.destruct, if_neg isOpen]
    refine accounts_blank rfl fun n pushed => isOpen ?_
    rw [pushed.1]
    rfl
  rw [OQStream.destruct, if_pos isOpen]
  cases cancel : stream.cancel q true with
  | error e =>
    -- the journal call succeeds
    rw [OQStream.cancel, if_neg (by simpa [Option.isSome_iff_ne_none] using isOpen)] at cancel
    split at cancel <;> cases cancel
  | ok pair =>
    obtain ⟨closed, q'⟩ := pair
    obtain ⟨-, -, ⟨multi, erase⟩ | ⟨single, rfl⟩⟩ := OQStream.cancel_ok cancel
    · have lookup := Queue.lookup_eraseChunks erase
      refine accounts_of (fun n mem => .inl ?_) (fun n item => ?_) fun n mem pushed => ?_
      · rw [mem_iff_lookup, lookup] at mem
        split at mem
        · obtain ⟨value, wrong⟩ := mem
          cases wrong
        · exact mem_iff_lookup.mpr mem
      · obtain ⟨id, header, stored, inside⟩ := item
        refine ⟨id, header, (headerAt_congr header ?_).mpr stored, inside⟩
        rw [lookup, if_neg (Header.queue_notMem_chunkKeys _ _)]
      · rw [mem_iff_lookup, lookup, if_pos (reserved multi n pushed.2.2)] at mem
        obtain ⟨value, wrong⟩ := mem
        cases wrong
    · exact accounts_blank rfl fun n pushed => absurd pushed.2.1 (by omega)

variable {s s' t : Server} {i : ℕ}

theorem tight_same (contents : (s'.object address).contents = (s.object address).contents)
    (push : ∀ j, (s'.conn j).pushStream = (s.conn j).pushStream) (tight : Tight s address) :
    Tight s' address := by
  intro n mem
  rw [contents] at mem ⊢
  rcases tight n mem with item | ⟨j, pushed⟩
  · exact .inl item
  · exact .inr ⟨j, (push j).symm ▸ pushed⟩

theorem tight_pushStream {h : Handler} {a : ℕ} (there : i < s.conns.length)
    (made : a < s.objects.length)
    (only : (s.conn i).pushStream.queue = some a ∨ (s.conn i).pushStream.queue = none)
    (accounts : Accounts a (s.object a) (s.conn i).pushStream q h.pushStream)
    (tight : Tight s address) : Tight ((s.setObject a q).setConn i h) address := by
  have conn := Server.conn_setObject_setConn a q h there
  have others : ∀ {j}, j ≠ i → ((s.setObject a q).setConn i h).conn j = s.conn j := fun ne =>
    Server.conn_setConn_ne _ _ ne
  intro n mem
  rw [Server.object_setConn] at mem ⊢
  by_cases same : address = a
  · subst same
    rw [Server.object_setObject_self q made] at mem ⊢
    rcases accounts n mem with item | pushed | ⟨old, item, away⟩
    · exact .inl item
    · exact .inr ⟨i, by rwa [conn]⟩
    · rcases tight n old with item' | ⟨j, pushed⟩
      · exact absurd item' item
      · have ne : j ≠ i := by
          rintro rfl
          exact away pushed
        exact .inr ⟨j, by rwa [others ne]⟩
  · rw [Server.object_setObject_ne s q same] at mem ⊢
    rcases tight n mem with item | ⟨j, pushed⟩
    · exact .inl item
    · have ne : j ≠ i := by
        rintro rfl
        rcases only with here | closed
        · exact same (Option.some.inj (pushed.1.symm.trans here))
        · rw [pushed.1] at closed
          cases closed
      exact .inr ⟨j, by rwa [others ne]⟩

/-- What is kept of a handler by every call. -/
structure ProperHandler (h : Handler) : Prop where
  size : h.req.numBytes < 2 ^ 32
  begun : h.popStream.queue.isSome → h.popStream.chunkPos ≠ 0 ∨ Dying h
  shut : h.pending = .closed → h.pushStream.queue = none

/-- What holds of a server between two calls, however its journal calls turn out. -/
structure Steady (s : Server) : Prop where
  sound : ∀ a, Sound (ServerMoves.config s a)
  sited : Sited s
  receives : AllReceiving s
  proper : ∀ j, ProperHandler (s.conn j)

/-- What holds of a server between two calls. -/
structure Tidy (s : Server) : Prop extends Steady s where
  tight : ∀ a, Tight s a

theorem Steady.ready (steady : Steady s) (there : i < s.conns.length) : Ready i s :=
  ⟨there, steady.sited.named, steady.sound, fun j a isOpen => steady.sited.held j a (.inr isOpen)⟩

theorem mem_writers {a : ℕ} (there : i < s.conns.length)
    (isOpen : (s.conn i).pushStream.queue = some a) :
    (s.conn i).pushStream ∈ (ServerMoves.config s a).writers :=
  List.mem_filterMap.mpr ⟨s.conn i, List.mem_of_getElem? (conn_row there), if_pos isOpen⟩

theorem ProperHandler.begun_free {h : Handler} (proper : ProperHandler h) (alive : ¬Dying h)
    (isOpen : h.popStream.queue.isSome) : h.popStream.chunkPos ≠ 0 :=
  (proper.begun isOpen).resolve_right alive

theorem alive_pending {h : Handler} (other : ∀ text, h.pending ≠ .write text .hangUp) :
    ¬Dying h := by
  rintro ⟨text, same⟩
  exact other text same

theorem free_alive {h : Handler} (free : Free h) : ¬Dying h := alive_pending free.1

theorem Steady.pushing {n : ℕ} (steady : Steady s) (reading : (s.conn i).pending = .readChunk n)
    (enough : n = 0 ∨ s.capacity ≤ (s.conn i).inBuf.length) :
    Pushing (s.conn i) ∧ 0 < (s.conn i).inBuf.length := by
  have there : i < s.conns.length := Server.conn_there (by simp [reading])
  have receiving := steady.receives.reading i n reading
  have filling := receiving.filling
  have pos := steady.receives.pos
  refine ⟨⟨filling.told_le, fun multi => ?_, (steady.proper i).size⟩, ?_⟩
  · obtain ⟨a, isOpen⟩ := Option.isSome_iff_exists.mp receiving.isOpen
    have several := ((steady.sound a).cons.layout.unfinished _ (mem_writers there isOpen) multi).several
    have start := filling.start
    have stop := filling.stop
    rcases filling.least with single | less
    · omega
    · rw [filling.told]
      exact lt_of_le_of_lt (Nat.mul_le_mul_right _ (by omega)) less
  · have buffered := receiving.buffered enough
    unfold required at buffered
    dsimp only at buffered
    split at buffered <;> omega

theorem call_after {io : Io} {deletes : Bytes → Prop} (steady : Steady s) (there : i < s.conns.length)
    (call : Call i io deletes s s') (fits : ∀ a, (s'.object a).chunksHead.id < wordSize) :
    ∃ deeds, After i deeds s s' := by
  have ready := steady.ready there
  have fetched : ∀ {a t u io'} {result : Except Error Bytes}, s.popOpen i a = (.ok true, t) →
      t.popRead i io' = (result, u) → ∃ id, After i [.take a id] s u := by
    intro a t u io' result opened read
    rcases s.popOpen_cases i a with ⟨-, h⟩ | ⟨-, -, h⟩ | ⟨closed, id, q, pop, h⟩
    · cases h.symm.trans opened
    · cases h.symm.trans opened
    · obtain ⟨-, rfl⟩ := Prod.mk.inj (h.symm.trans opened)
      have did : Did i (.take a id) s ((s.setObject a q).setConn i
          { s.conn i with popStream := { queue := some a, id := id } }) :=
        ⟨there, closed, q, pop, rfl⟩
      have ready' := ready.did did
      have calm := calm_popRead ready'.there ready'.popMade io'
      rw [read] at calm
      exact ⟨id, did.after.calm calm⟩
  cases call with
  | touch pop push =>
    exact ⟨[], calm_setConn there (fun a => by rw [readerOn, pop]; rfl)
      fun a => by rw [writerOn, push]; rfl⟩
  | count stats => exact ⟨[], calm_stats i s stats⟩
  | make => exact ⟨[], calm_withQueue i s _⟩
  | delete free asked found => exact ⟨[], calm_withoutQueue i (ready.named _ _ found)⟩
  | fetch free found opened read =>
    obtain ⟨id, after⟩ := fetched opened read
    exact ⟨_, after⟩
  | fetchFailed free found opened read =>
    obtain ⟨id, after⟩ := fetched opened read
    exact ⟨_, after.calm (calm_reply (conn_fetch there opened read).1 _ _)⟩
  | read io' free => exact ⟨[], calm_popRead there ready.popMade io'⟩
  | @close _ erase n free closed =>
    rcases Server.popClose_ok closed with ⟨-, rfl⟩ | ⟨a, q, isOpen, pop, rfl⟩
    · exact ⟨[], .refl i _⟩
    · have ends : PopEnds i a (s.conn i).popStream.id erase s ((s.setObject a q).setConn i
          { s.conn i with popStream := { (s.conn i).popStream with queue := none } }) :=
        ⟨there, ready.popMade a isOpen, ⟨isOpen, rfl⟩, q, io n,
          { (s.conn i).popStream with queue := none }, pop, rfl, rfl⟩
      cases erase with
      | true =>
        have did : Did i (.remove a (s.conn i).popStream.id) s _ := ends
        exact ⟨_, did.after⟩
      | false =>
        have did : Did i (.giveBack a (s.conn i).popStream.id) s _ := ends
        exact ⟨_, did.after⟩
  | @set a t free found opened =>
    have calm := calm_pushOpen there (ready.named _ a found) opened (fits a)
    exact ⟨[], calm.trans (calm_readNextChunk (lt_of_lt_of_le there calm.conns))⟩
  | receive data =>
    rcases recv_cases s i data with same | ⟨-, ⟨-, -, same⟩ | ⟨n, -, -, same⟩⟩
    · rw [same]
      exact ⟨[], .refl i s⟩
    · rw [same]
      exact ⟨[], calm_setConn there (fun _ => rfl) fun _ => rfl⟩
    · rw [same]
      exact ⟨[], calm_setConn there (fun _ => rfl) fun _ => rfl⟩
  | chunk outcome reading enough =>
    obtain ⟨pushing, buffered⟩ := steady.pushing reading enough
    exact ⟨[], (setOnReadChunk_calm ready steady.receives.pos pushing buffered).1⟩
  | drop n =>
    cases isOpen : (s.conn i).popStream.queue with
    | some a => exact ⟨_, drop_holding ready ⟨isOpen, rfl⟩⟩
    | none => exact ⟨[], drop_closed ready isOpen⟩

theorem begun_readChunk (stream : IQStream) (q : Queue) (result : Bytes) (ok : Bool) :
    stream.chunkPos ≤ (stream.readChunk q result ok).2.chunkPos ∧
    ∀ bytes, (stream.readChunk q result ok).1 = .ok bytes →
      (stream.readChunk q result ok).2.chunkPos ≠ 0 := by
  unfold IQStream.readChunk
  split <;> simp

theorem begun_read (stream : IQStream) (q : Queue) (io : Io)
    (h : stream.chunkPos ≠ 0 ∨ ∃ bytes, (stream.read q io).1 = .ok bytes) :
    (stream.read q io).2.chunkPos ≠ 0 := by
  have chunk := begun_readChunk stream q [] (io 1)
  unfold IQStream.read at h ⊢
  split
  case isTrue stuck =>
    rw [if_pos stuck] at h
    exact h.resolve_right (by simp)
  case isFalse more =>
    rw [if_neg more] at h
    split
    case isTrue first =>
      rw [if_pos first] at h
      obtain ⟨bytes, read⟩ := h.resolve_left (fun later => later first)
      split at read
      case h_1 => cases read
      case h_2 result stream' entry =>
        exact (begun_readChunk stream' q result (io 1)).2 bytes read
    case isFalse later =>
      have := chunk.1
      omega

theorem proper_popStream {h : Handler} {stream : IQStream} (proper : ProperHandler h)
    (begun : stream.queue.isSome → stream.chunkPos ≠ 0) :
    ProperHandler { h with popStream := stream } where
  size := proper.size
  begun isOpen := .inl (begun isOpen)
  shut := proper.shut

theorem proper_touch {h h' : Handler} (proper : ProperHandler h) (alive : ¬Dying h)
    (pop : h'.popStream = h.popStream) (size : h'.req = h.req ∨ h'.req.numBytes < 2 ^ 32)
    (going : h'.pending ≠ .closed) : ProperHandler h' where
  size := by
    rcases size with same | small
    · rw [same]
      exact proper.size
    · exact small
  begun isOpen := by
    rw [pop] at isOpen ⊢
    exact .inl (proper.begun_free alive isOpen)
  shut closed := absurd closed going

theorem proper_blank (pending : Pending) : ProperHandler { pending := pending } where
  size := Nat.two_pow_pos 32
  begun isOpen := by cases isOpen
  shut _ := rfl

theorem conn_read (there : i < s.conns.length) {io' : Io} {result : Except Error Bytes}
    (read : s.popRead i io' = (result, t)) :
    t.conn i = { s.conn i with popStream :=
      ((s.conn i).popStream.read (s.object ((s.conn i).popStream.queue.getD 0)) io').2 } ∧
    ((s.conn i).popStream.read (s.object ((s.conn i).popStream.queue.getD 0)) io').1 = result := by
  obtain ⟨rfl, rfl⟩ := Prod.mk.inj read
  exact ⟨Server.conn_setConn_self _ there, rfl⟩

theorem proper_call {io : Io} {deletes : Bytes → Prop} (steady : Steady s) (there : i < s.conns.length)
    (call : Call i io deletes s s') : ProperHandler (s'.conn i) := by
  have proper := steady.proper i
  cases call with
  | touch pop push free plain alive size =>
    rw [Server.conn_setConn_self _ there]
    exact proper_touch proper (free_alive free) pop size alive
  | count stats => exact proper
  | make => exact proper
  | delete => exact proper
  | fetch free found opened read =>
    obtain ⟨there', stream, conn⟩ := conn_popOpen there opened
    obtain ⟨conn', result⟩ := conn_read there' read
    rw [conn] at conn' result
    rw [conn']
    exact proper_popStream (h := s.conn i) proper fun _ => begun_read _ _ _ (.inr ⟨_, result⟩)
  | fetchFailed free found opened read =>
    obtain ⟨there', stream, conn⟩ := conn_fetch there opened read
    rw [Server.serverError, conn_reply there', conn]
    exact ⟨proper.size, fun _ => .inr ⟨_, rfl⟩, fun closed => by cases closed⟩
  | read io' free =>
    have read : s.popRead i io' = ((s.popRead i io').1, (s.popRead i io').2) := rfl
    rw [(conn_read there read).1]
    refine proper_popStream proper fun isOpen => begun_read _ _ _ (.inl ?_)
    rw [IQStream.queue_read] at isOpen
    exact proper.begun_free (free_alive free) isOpen
  | close n free closed =>
    rcases Server.popClose_ok closed with ⟨-, rfl⟩ | ⟨a, q, -, -, rfl⟩
    · exact proper
    · rw [Server.conn_setObject_setConn a q _ there]
      exact proper_popStream proper fun isOpen => by cases isOpen
  | set free found opened =>
    obtain ⟨closed, rfl⟩ := pushOpen_ok opened
    rw [conn_readNextChunk (lt_of_lt_of_eq there List.length_set.symm),
      Server.conn_setObject_setConn _ _ _ there]
    exact proper_touch proper (free_alive free) rfl (.inl rfl) (by simp)
  | receive data =>
    rcases recv_cases s i data with same | ⟨-, ⟨reading, -, same⟩ | ⟨n, -, reading, same⟩⟩
    · rw [same]
      exact proper
    · rw [same, Server.conn_setConn_self _ there]
      exact proper_touch proper (alive_pending (by simp [reading])) rfl (.inl rfl)
        (by simp [reading])
    · rw [same, Server.conn_setConn_self _ there]
      exact proper_touch proper (alive_pending (by simp [reading])) rfl (.inl rfl) (by simp)
  | @chunk env n outcome reading enough =>
    have alive : ¬Dying (s.conn i) := alive_pending (by simp [reading])
    have took : Took i env s (s.setOnReadChunk i env) := setOnReadChunk_took there
      (fun a isOpen => steady.sited.held i a (.inr isOpen)) (steady.receives.reading i n reading) enough
    cases took with
    | failed conn =>
      rw [conn]
      exact proper_touch proper alive rfl (.inl rfl) (by simp)
    | more conn =>
      rw [conn]
      exact proper_touch proper alive rfl (.inl rfl) (by simp)
    | stored isOpen conn =>
      rw [conn]
      exact proper_touch proper alive rfl (.inl rfl) (by simp)
  | drop n =>
    rw [conn_drop there]
    exact proper_blank _

theorem push_setConn {h : Handler} (push : h.pushStream = (s.conn i).pushStream) (j : ℕ) :
    ((s.setConn i h).conn j).pushStream = (s.conn j).pushStream := by
  by_cases same : j = i
  · subst same
    by_cases there : j < s.conns.length
    · rw [Server.conn_setConn_self _ there, push]
    · rw [Server.conn_beyond (by rw [Server.setConn, List.length_set]; omega),
        Server.conn_beyond (by omega)]
  · rw [Server.conn_setConn_ne s h same]

theorem push_set {h : Handler} (a : ℕ) (q : Queue) (push : h.pushStream = (s.conn i).pushStream)
    (j : ℕ) : (((s.setObject a q).setConn i h).conn j).pushStream = (s.conn j).pushStream :=
  push_setConn (s := s.setObject a q) push j

theorem tight_popStream {h : Handler} {a : ℕ} (contents : q.contents = (s.object a).contents)
    (push : h.pushStream = (s.conn i).pushStream) (tight : Tight s address) :
    Tight ((s.setObject a q).setConn i h) address :=
  tight_same (s := s) (object_setObject_field Queue.contents contents address)
    (push_set a q push) tight

theorem tight_setConn {h : Handler} (push : h.pushStream = (s.conn i).pushStream)
    (tight : Tight s address) : Tight (s.setConn i h) address :=
  tight_same (s := s) rfl (push_setConn push) tight

theorem Tidy.header_eq {a : ℕ} {header : Header} (tidy : Tidy s) (there : i < s.conns.length)
    (isOpen : (s.conn i).popStream.queue = some a) (begun : (s.conn i).popStream.chunkPos ≠ 0)
    (stored : HeaderAt (s.object a).contents (s.conn i).popStream.id header) :
    (s.conn i).popStream.header = header := by
  have held : Holds s i a (s.conn i).popStream.id := ⟨isOpen, rfl⟩
  have progress := (tidy.sound a).progress _ (mem_readers there held)
  cases progress with
  | fresh header pos tell => exact absurd pos begun
  | single entry item stop pos =>
    obtain ⟨value, found, isHeader⟩ := stored
    obtain rfl := Option.some.inj (entry.symm.trans found)
    cases item.symm.trans isHeader
  | multi entry start stop tell => exact HeaderAt.unique entry stored

theorem tight_popClose {erase ok : Bool} (tidy : Tidy s) (there : i < s.conns.length)
    (free : Free (s.conn i)) (closed : s.popClose i erase ok = .ok s') (address : ℕ) :
    Tight s' address := by
  have tight := tidy.tight address
  rcases Server.popClose_ok closed with ⟨-, rfl⟩ | ⟨a, q, isOpen, pop, rfl⟩
  · exact tight
  have begun := (tidy.proper i).begun_free (free_alive free) (by rw [isOpen]; rfl)
  have push : ∀ j, (((s.setObject a q).setConn i { s.conn i with popStream :=
      { (s.conn i).popStream with queue := none } }).conn j).pushStream = (s.conn j).pushStream :=
    push_set a q rfl
  cases erase with
  | false =>
    refine tight_popStream ?_ rfl tight
    rw [Queue.popEnd_return] at pop
    rw [← Except.ok.inj pop]
    obtain ⟨waiters, it, same⟩ := Queue.wakeUp_eq ((s.object a).putBack (s.conn i).popStream.id)
    rw [same]
    rfl
  | true =>
    obtain ⟨bytes, ranges, rfl⟩ := Queue.popEnd_erase pop
    by_cases same : address = a
    case neg =>
      refine tight_same (s := s) ?_ push tight
      rw [Server.object_setConn, Server.object_setObject_ne s _ same]
    subst same
    have made := tidy.sited.held i address (.inl isOpen)
    have lookup := (s.object address).lookup_erased (s.conn i).popStream.id
      (s.conn i).popStream.header
    intro n mem
    rw [Server.object_setConn, Server.object_setObject_self _ made] at mem ⊢
    have mem : (⟨.chunk, n⟩ : Key) ∈ ((s.object address).erased (s.conn i).popStream.id
      (s.conn i).popStream.header).contents := mem
    rw [mem_iff_lookup, lookup] at mem
    split at mem
    case isTrue =>
      obtain ⟨value, wrong⟩ := mem
      cases wrong
    case isFalse away =>
      rcases tight n (mem_iff_lookup.mpr mem) with ⟨id, header, stored, inside⟩ | ⟨j, pushed⟩
      · -- the chunks of the item that is erased are all in the batch
        have ne : id ≠ (s.conn i).popStream.id := by
          rintro rfl
          have layout := (tidy.sound address).cons.layout
          have several := layout.intact.several stored
          refine away ((Queue.chunk_mem_itemKeys _ _ _).mpr ?_)
          rw [tidy.header_eq there isOpen begun stored]
          exact ⟨by omega, (layout.header_chunkIds stored).mpr inside⟩
        refine .inl ⟨id, header, (headerAt_congr header ?_).mpr stored, inside⟩
        change ((s.object address).erased (s.conn i).popStream.id
          (s.conn i).popStream.header).contents.lookup ⟨.queue, id⟩ = _
        rw [lookup, if_neg (by rwa [Queue.queue_mem_itemKeys])]
      · refine .inr ⟨j, ?_⟩
        rwa [push j]

theorem Steady.fresh (steady : Steady s) (a : ℕ) : Fresh (s.object a) :=
  ⟨(steady.sound a).cons.own.head_type, head_not_stored (steady.sound a).cons.own⟩

theorem tight_storeChunk {chunk : Bytes} {env : Env} {a : ℕ} {h : Handler} (tidy : Tidy s)
    (there : i < s.conns.length) (isOpen : (s.conn i).pushStream.queue = some a)
    (push : h.pushStream = (s.conn i).pushStream)
    (room : (s.conn i).pushStream.tell + chunk.length ≤ (s.conn i).req.numBytes) (address : ℕ) :
    Tight ((s.setConn i h).storeChunk i chunk env) address := by
  have made := tidy.sited.held i a (.inr isOpen)
  have layout := (tidy.sound a).cons.layout
  have there' : i < (s.setConn i h).conns.length := lt_of_lt_of_eq there List.length_set.symm
  have conn := Server.conn_setConn_self h there
  have size := (tidy.proper i).size
  have word : (2 : ℕ) ^ 32 < wordSize := by decide
  have accounts : Accounts a (s.object a) (s.conn i).pushStream
      ((s.conn i).pushStream.write (s.object a) chunk env.stray env.io).2.2
      ((s.conn i).pushStream.write (s.object a) chunk env.stray env.io).2.1 := by
    refine accounts_write (tidy.toSteady.fresh a) isOpen (fun multi => ?_) fun multi => ?_
    · exact (layout.unfinished _ (mem_writers there isOpen) multi).start
    · have own := layout.unfinished _ (mem_writers there isOpen) multi
      have := own.several
      have := own.reserved
      have := layout.small
      rw [OQStream.tell] at room
      exact ⟨by simp only; omega, by simp only; omega, by simp only; omega⟩
  have written : ∀ address,
      Tight ((s.setConn i h).pushWrite i chunk env.stray env.io).2 address := by
    intro address
    have isOpen' : ((s.setConn i h).conn i).pushStream.queue = some a := by rw [conn, push, isOpen]
    rw [pushWrite_eq isOpen']
    refine tight_pushStream there' made (.inl isOpen') ?_ (tight_setConn push (tidy.tight address))
    rw [conn, push]
    exact accounts
  have same := written address
  unfold Server.storeChunk
  split
  case h_1 e t result =>
    rw [result] at same
    exact tight_setConn rfl same
  case h_2 t result =>
    rw [result] at same
    split
    · exact tight_setConn (s := { t with stats := _ }) rfl same
    · exact tight_setConn rfl same

theorem tight_closed {h : Handler} (closed : (s.conn i).pushStream.queue = none)
    (tight : Tight s address) : Tight (s.setConn i h) address := by
  intro n mem
  rcases tight n mem with item | ⟨j, pushed⟩
  · exact .inl item
  · have ne : j ≠ i := by
      rintro rfl
      cases closed.symm.trans pushed.1
    exact .inr ⟨j, by rwa [Server.conn_setConn_ne s h ne]⟩

theorem contents_oopen (stream : OQStream) (address : ℕ) (q : Queue) (count : ℕ) (sync : Bool) :
    (stream.open_ address q count sync).2.2.contents = q.contents := by
  rcases stream.open_queue address q count sync with same | reserved
  · rw [same]
  · rw [reserved]
    rfl

theorem contents_destruct (stream : IQStream) (q : Queue) :
    (stream.destruct q).contents = q.contents := by
  by_cases isOpen : stream.queue.isSome
  · rw [IQStream.destruct_open isOpen]
    obtain ⟨waiters, it, same⟩ := Queue.wakeUp_eq (q.putBack stream.id)
    rw [same]
    rfl
  · rw [IQStream.destruct_closed (by simpa using isOpen)]

theorem tight_drop (tidy : Tidy s) (there : i < s.conns.length) (address : ℕ) :
    Tight (s.drop i true) address := by
  have first : Tight (s.dropPush i true) address := by
    unfold Server.dropPush
    split
    · exact tidy.tight address
    case h_2 a isOpen =>
      have layout := (tidy.sound a).cons.layout
      refine tight_pushStream there (tidy.sited.held i a (.inr isOpen)) (.inl isOpen) ?_
        (tidy.tight address)
      refine accounts_destruct fun multi n inside => ?_
      have writes := mem_writers there isOpen
      have stop := (layout.unfinished _ writes multi).stop
      obtain ⟨above, below⟩ := Finset.mem_Ico.mp inside
      rw [layout.mem_chunkKeys_iff writes multi, OQStream.reserved_multi multi]
      exact Finset.mem_Ico.mpr ⟨above, by omega⟩
  have second : Tight ((s.dropPush i true).dropPop i) address ∧
      (((s.dropPush i true).dropPop i).conn i).pushStream.queue = none := by
    unfold Server.dropPop
    split
    · exact ⟨first, push_dropPush there⟩
    case h_2 a isOpen =>
      refine ⟨tight_popStream (contents_destruct _ _) rfl first, ?_⟩
      have push := push_set (h := { (s.dropPush i true).conn i with popStream := {} }) a
        (((s.dropPush i true).conn i).popStream.destruct ((s.dropPush i true).object a)) rfl i
      exact (congrArg OQStream.queue push).trans (push_dropPush there)
  exact tight_closed second.2 second.1

theorem tight_withQueue {name : Bytes} (tight : Tight s address) :
    Tight (s.withQueue name) address := by
  refine tight_same (s := s) ?_ (fun _ => rfl) tight
  by_cases new : address = s.objects.length
  · rw [new, Server.object_withQueue_self, Server.object_beyond (le_refl _)]
    rfl
  · rw [Server.object_withQueue_ne s name new]

theorem tight_fetch {a : ℕ} {u : Server} {io' : Io} {result : Except Error Bytes}
    (opened : s.popOpen i a = (.ok true, t)) (read : t.popRead i io' = (result, u))
    (tight : Tight s address) : Tight u address := by
  rcases s.popOpen_cases i a with ⟨-, h⟩ | ⟨-, -, h⟩ | ⟨-, id, q, pop, h⟩
  · cases h.symm.trans opened
  · cases h.symm.trans opened
  · obtain ⟨-, rfl⟩ := Prod.mk.inj (h.symm.trans opened)
    obtain ⟨-, rfl⟩ := Prod.mk.inj read
    exact tight_setConn rfl (tight_popStream (Queue.contents_popBegin pop) rfl tight)

theorem tight_setOnReadChunk {env : Env} {n : ℕ} (tidy : Tidy s) (there : i < s.conns.length)
    (reading : (s.conn i).pending = .readChunk n) (address : ℕ) :
    Tight (s.setOnReadChunk i env) address := by
  obtain ⟨isOpen, filling, -⟩ := tidy.receives.reading i n reading
  obtain ⟨a, isOpen⟩ := Option.isSome_iff_exists.mp isOpen
  have told := filling.told_le
  unfold Server.setOnReadChunk
  dsimp only
  split
  · split
    · exact tight_setConn rfl (tidy.tight address)
    · refine tight_storeChunk tidy there isOpen (by rfl) ?_ address
      rw [List.length_take]
      omega
  · refine tight_storeChunk tidy there isOpen (by rfl) ?_ address
    rw [List.length_take]
    omega

theorem call_tight {io : Io} {deletes : Bytes → Prop} (tidy : Tidy s) (there : i < s.conns.length)
    (clean : ∀ n, io n = true) (call : Call i io deletes s s') (address : ℕ) :
    Tight s' address := by
  have tight := tidy.tight address
  cases call with
  | touch pop push => exact tight_setConn push tight
  | count stats => exact tight
  | make => exact tight_withQueue tight
  | @delete name a free asked found =>
    refine tight_same (s := s) ?_ (fun _ => rfl) tight
    exact object_setObject_field Queue.contents
      (congrArg Journal.contents (unseen_destroy (s.object a) s.paths).journal) address
  | fetch free found opened read => exact tight_fetch opened read tight
  | fetchFailed free found opened read => exact tight_setConn rfl (tight_fetch opened read tight)
  | read io' free => exact tight_setConn rfl tight
  | close n free closed => exact tight_popClose tidy there free closed address
  | @set a t free found opened =>
    obtain ⟨closed, rfl⟩ := pushOpen_ok opened
    refine tight_setConn rfl (tight_pushStream there (tidy.sited.named _ a found) (.inr closed)
      (accounts_blank (contents_oopen ..) fun n pushed => ?_) tight)
    cases closed.symm.trans pushed.1
  | receive data =>
    rcases recv_cases s i data with same | ⟨-, ⟨-, -, same⟩ | ⟨n, -, -, same⟩⟩
    · rw [same]
      exact tight
    · rw [same]
      exact tight_setConn rfl tight
    · rw [same]
      exact tight_setConn rfl tight
  | chunk outcome reading enough => exact tight_setOnReadChunk tidy there reading address
  | drop n =>
    rw [clean n]
    exact tight_drop tidy there address

/-! Every event. -/

def ChunkIdsFit (s : Server) : Prop := ∀ a, (s.object a).chunksHead.id < wordSize

theorem call_steady {io : Io} {deletes : Bytes → Prop} (s s' : Server)
    (there : i < s.conns.length) (steady : ChunkIdsFit s → Steady s) (call : Call i io deletes s s')
    (bounded : ChunkIdsFit s') : Steady s' := by
  have steady := steady fun a => lt_of_le_of_lt (call.chunksHead there a) (bounded a)
  obtain ⟨deeds, after⟩ := call_after steady there call bounded
  obtain ⟨sited, receives⟩ := call_receives s s' there ⟨steady.sited, steady.receives⟩ call
  refine
    { sound := fun a => (after.changes a).invariant change_sound (steady.sound a)
      sited := sited
      receives := receives
      proper := fun j => ?_ }
  by_cases same : j = i
  · subst same
    exact proper_call steady there call
  · rw [call.others there same]
    exact steady.proper j

theorem call_tidy {io : Io} {deletes : Bytes → Prop} (clean : ∀ n, io n = true) (s s' : Server)
    (there : i < s.conns.length) (tidy : ChunkIdsFit s → Tidy s) (call : Call i io deletes s s')
    (bounded : ChunkIdsFit s') : Tidy s' := by
  have before := tidy fun a => lt_of_le_of_lt (call.chunksHead there a) (bounded a)
  have steady := call_steady s s' there (fun _ => before.toSteady) call bounded
  exact ⟨steady, call_tight before there clean call⟩

theorem Steady.unseen {q : Queue} (steady : Steady s) (unseen : Unseen (s.object address) q) :
    Steady (s.setObject address q) := by
  by_cases made : address < s.objects.length
  case neg =>
    rw [Server.setObject_beyond q (by omega)]
    exact steady
  have calm := calm_unseen 0 made unseen
  exact
    { sound := fun a => (calm.changes a).invariant change_sound (steady.sound a)
      sited := steady.sited.congr rfl List.length_set fun _ _ => id
      receives := ⟨steady.receives.pos, steady.receives.reading⟩
      proper := steady.proper }

theorem tight_unseen {q : Queue} {a : ℕ} (unseen : Unseen (s.object a) q)
    (tight : Tight s address) : Tight (s.setObject a q) address := by
  refine tight_same (s := s) ?_ (fun _ => rfl) tight
  exact object_setObject_field Queue.contents (congrArg Journal.contents unseen.journal) address

theorem Begins.steady {event : ServerEvent} (begins : Begins i event s t) (steady : Steady s) :
    Steady t := by
  cases begins with
  | ready => exact steady
  | woken => exact steady.unseen ⟨rfl, rfl, rfl, rfl, rfl, rfl⟩

theorem Begins.tidy {event : ServerEvent} (begins : Begins i event s t) (tidy : Tidy s) :
    Tidy t := by
  refine ⟨Begins.steady begins tidy.toSteady, fun a => ?_⟩
  cases begins with
  | ready => exact tidy.tight a
  | woken => exact tight_unseen ⟨rfl, rfl, rfl, rfl, rfl, rfl⟩ (tidy.tight a)

theorem Leaves.steady (there : i < s.conns.length) (leaves : Leaves i s s') (steady : Steady s) :
    Steady s' := by
  have sited := leaves.sited there steady.sited
  have receives := Leaves.receives there leaves steady.receives
  cases leaves with
  | done => exact steady
  | @waits a waitMs found closed empty =>
    have line := steady.unseen (unseen_wait (s.object a) waitMs i)
    have calm := calm_setPending (s := s.setObject a ((s.object a).wait waitMs i)) there
      (.wait a (s.object a).nextNode)
    refine
      { sound := fun b => (calm.changes b).invariant change_sound (line.sound b)
        sited := sited
        receives := receives
        proper := fun j => ?_ }
    rw [conn_waits there]
    split
    case isTrue =>
      refine ⟨(steady.proper i).size, fun isOpen => ?_, fun closed => by cases closed⟩
      have isOpen : (s.conn i).popStream.queue.isSome := isOpen
      rw [closed] at isOpen
      cases isOpen
    case isFalse => exact steady.proper j

theorem Leaves.tidy (there : i < s.conns.length) (leaves : Leaves i s s') (tidy : Tidy s) :
    Tidy s' := by
  refine ⟨Leaves.steady there leaves tidy.toSteady, fun b => ?_⟩
  cases leaves with
  | done => exact tidy.tight b
  | @waits a waitMs found closed empty =>
    exact tight_setConn rfl (tight_unseen (unseen_wait (s.object a) waitMs i) (tidy.tight b))

theorem Leaves.bounded (leaves : Leaves i s s') (bounded : ChunkIdsFit s') : ChunkIdsFit s := by
  cases leaves with
  | done => exact bounded
  | @waits a waitMs found closed empty =>
    intro b
    have same := object_setObject_field (s := s) (q := (s.object a).wait waitMs i)
      (fun q => q.chunksHead.id) rfl b
    exact lt_of_eq_of_lt same.symm (bounded b)

theorem step_steady {event : ServerEvent} (awake : Awake none s) (steady : Steady s)
    (run : s.Step event s') (bounded : ChunkIdsFit s') : Steady s' := by
  cases step_serves awake run with
  | nothing => exact steady
  | accept =>
    have calm := calm_accept s { s.stats with connsOpened := s.stats.connsOpened + 1 }
    refine
      { sound := fun a => (calm.changes a).invariant change_sound (steady.sound a)
        sited := step_sited awake steady.sited run
        receives := step_receives awake steady.sited steady.receives run
        proper := fun j => ?_ }
    rcases conn_accept s _ j with same | new
    · rw [same]
      exact steady.proper j
    · rw [new]
      exact proper_blank _
  | expire a node => exact steady.unseen ⟨rfl, rfl, rfl, rfl, rfl, rfl⟩
  | calls who there begins calls leaves =>
    obtain ⟨there', steady'⟩ := calls.invariant (P := fun t => ChunkIdsFit t → Steady t) call_steady
      (begins.conns ▸ there) fun _ => Begins.steady begins steady
    exact Leaves.steady there' leaves (steady' (Leaves.bounded leaves bounded))

theorem step_tidy {event : ServerEvent} (awake : Awake none s) (tidy : Tidy s)
    (clean : ∀ n, outcomes event n = true) (run : s.Step event s') (bounded : ChunkIdsFit s') :
    Tidy s' := by
  have steady' := step_steady awake tidy.toSteady run bounded
  cases step_serves awake run with
  | nothing => exact tidy
  | accept =>
    have calm := calm_accept s { s.stats with connsOpened := s.stats.connsOpened + 1 }
    refine ⟨steady', fun a n mem => ?_⟩
    rcases tidy.tight a n mem with item | ⟨j, pushed⟩
    · exact .inl item
    · have ne : j ≠ s.conns.length := by
        rintro rfl
        rw [Server.conn_beyond (le_refl _)] at pushed
        cases pushed.1
      exact .inr ⟨j, by rwa [calm.others j ne]⟩
  | expire a node =>
    exact ⟨steady', fun b => tight_unseen ⟨rfl, rfl, rfl, rfl, rfl, rfl⟩ (tidy.tight b)⟩
  | calls who there begins calls leaves =>
    obtain ⟨there', tidy'⟩ := calls.invariant (P := fun t => ChunkIdsFit t → Tidy t) (call_tidy clean)
      (begins.conns ▸ there) fun _ => Begins.tidy begins tidy
    exact Leaves.tidy there' leaves (tidy' (Leaves.bounded leaves bounded))

theorem steady_started (started : s.Started) (sound : ∀ q ∈ s.objects, Sound ⟨q, [], []⟩) :
    Steady s := by
  refine
    { sound := (settled_started started sound).sound
      sited := sited_started started
      receives := receives_started started
      proper := fun j => ?_ }
  rw [started.closed j]
  exact proper_blank _

theorem life_steady (s : Server) (turn : LifeEvent) (s' : Server) (h : Awake none s ∧ Steady s)
    (life : Life s turn s') : Awake none s' ∧ Steady s' := by
  obtain ⟨awake, steady⟩ := h
  cases life with
  | event step fits =>
    exact ⟨step_awake _ _ _ awake step, step_steady awake steady step fits.chunks⟩
  | restart again =>
    refine ⟨awake_started again.started, steady_started again.started fun q mem => ?_⟩
    obtain ⟨a, writes, path, new⟩ := again.journals q mem
    have sound := steady.sound a
    exact sound_new new (sound.cons.images writes) (sound.solid writes)

theorem reachable_steady {chunkSize : ℕ} {dataPath : Bytes} (pos : 0 < chunkSize)
    (reach : Reachable Life (.empty chunkSize dataPath) s) : Awake none s ∧ Steady s := by
  have started := Server.started_empty chunkSize dataPath pos
  exact reach.invariant (P := fun s => Awake none s ∧ Steady s)
    ⟨awake_started started, steady_started started fun q mem => by cases mem⟩ life_steady

structure Empty (s : Server) : Prop extends s.Started where
  empty : ∀ q ∈ s.objects, ∀ key, key ∉ q.contents

theorem tidy_empty (empty : Empty s) : Tidy s := by
  have sound : ∀ q ∈ s.objects, Sound ⟨q, [], []⟩ := by
    intro q mem
    obtain ⟨image, path, new⟩ := empty.opened q mem
    have none : ∀ key, key ∉ image := contents_new new ▸ empty.empty q mem
    exact sound_new new (intact_empty none) fun n chunk found =>
      absurd (mem_iff_lookup.mpr ⟨chunk, found⟩) (none _)
  refine ⟨steady_started empty.toStarted sound, fun a n mem => absurd mem ?_⟩
  exact Server.object_all (P := fun q => ∀ key, key ∉ q.contents) empty.empty
    (fun _ => Finmap.notMem_empty) a _

def Smooth (s : Server) (event : ServerEvent) (s' : Server) : Prop :=
  Life s (.event event) s' ∧ ∀ n, outcomes event n = true

theorem reachable_tidy {start : Server} (empty : Empty start) (reach : Reachable Smooth start s) :
    Awake none s ∧ Tidy s := by
  refine reach.invariant (P := fun s => Awake none s ∧ Tidy s)
    ⟨awake_started empty.toStarted, tidy_empty empty⟩ ?_
  rintro t event t' ⟨awake, tidy⟩ ⟨life, clean⟩
  obtain ⟨step, fits⟩ := life
  exact ⟨step_awake t event t' awake step, step_tidy awake tidy clean step fits.chunks⟩

theorem Tidy.present {n : ℕ} (tidy : Tidy s) (h : OfItem (s.object address).contents n ∨
    ∃ j, Pushed address (s.conn j).pushStream n) :
    (⟨.chunk, n⟩ : Key) ∈ (s.object address).contents := by
  have layout := (tidy.sound address).cons.layout
  rcases h with ⟨id, header, stored, inside⟩ | ⟨j, isOpen, multi, inside⟩
  · obtain ⟨above, below⟩ := Finset.mem_Ico.mp inside
    exact (layout.intact.filled stored).present n above below
  · have there : j < s.conns.length := by
      by_contra beyond
      rw [Server.conn_beyond (by omega)] at isOpen
      cases isOpen
    obtain ⟨above, below⟩ := Finset.mem_Ico.mp inside
    exact (layout.unfinished _ (mem_writers there isOpen) multi).filled.present n above below

/-- In every run in which the journal calls succeed, the chunks in a journal are exactly
those of the stored items and of the unfinished pushes; when the last item is erased and
every connection is gone, the journal is empty. -/
theorem chunks_exact {start : Server} (empty : Empty start) (reach : Reachable Smooth start s)
    (address : ℕ) :
    (∀ n, (⟨.chunk, n⟩ : Key) ∈ (s.object address).contents ↔
      OfItem (s.object address).contents n ∨ ∃ j, Pushed address (s.conn j).pushStream n) ∧
    ((∀ id, (⟨.queue, id⟩ : Key) ∉ (s.object address).contents) →
      (∀ j, (s.conn j).pending = .closed) → ∀ key, key ∉ (s.object address).contents) := by
  obtain ⟨-, tidy⟩ := reachable_tidy empty reach
  refine ⟨fun n => ⟨tidy.tight address n, tidy.present⟩, fun erased gone key mem => ?_⟩
  rcases key_cases key with ⟨id, rfl⟩ | ⟨n, rfl⟩
  · exact erased id mem
  · rcases tidy.tight address n mem with ⟨id, header, stored, -⟩ | ⟨j, isOpen, -⟩
    · exact erased id stored.mem
    · cases ((tidy.proper j).shut (gone j)).symm.trans isOpen

theorem reachable_smooth {start : Server} {events : List ServerEvent}
    (reach : Reachable Smooth start s) (run : fitting s events = some s')
    (clean : ∀ event ∈ events, ∀ n, outcomes event n = true) : Reachable Smooth start s' := by
  induction events generalizing s with
  | nil =>
    rw [← Option.some.inj run]
    exact reach
  | cons event events ih =>
    obtain ⟨t, life, rest⟩ := fitting_cons run
    have next := reach.next ⟨life, clean event List.mem_cons_self⟩
    exact ih next rest fun e mem => clean e (List.mem_cons_of_mem _ mem)

def twoPushes : List ServerEvent :=
  let env : Env := ⟨fun _ => true, 0, 0, 0⟩
  [.accept, .recv 0 (ascii "set q 0 0 18\r\n"), .readDone 0 env,
    .recv 0 (ascii "0123456789abcdef"), .readDone 0 env, .recv 0 (ascii "gh\r\n"), .readDone 0 env,
    .accept, .recv 1 (ascii "set q 0 0 18\r\n"), .readDone 1 env,
    .recv 1 (ascii "0123456789abcdef"), .readDone 1 env]

theorem chunks_exact_two : ∃ s, Reachable Smooth (.empty 16 [47]) s ∧
    (s.conn 1).pending = .readChunk 4 ∧
    ∀ n, (⟨.chunk, n⟩ : Key) ∈ (s.object 0).contents ↔
      OfItem (s.object 0).contents n ∨ ∃ j, Pushed 0 (s.conn j).pushStream n := by
  have facts : (fitting (.empty 16 [47]) twoPushes).map (fun s => (s.conn 1).pending) =
      some (.readChunk 4) := by decide
  obtain ⟨s, run, reading⟩ := Option.map_eq_some_iff.mp facts
  have clean : ∀ event ∈ twoPushes, ∀ n, outcomes event n = true := by
    simp [twoPushes, outcomes]
  have reach := reachable_smooth .refl run clean
  have empty : Empty (.empty 16 [47]) :=
    ⟨Server.started_empty 16 [47] (by decide), fun q mem => by cases mem⟩
  exact ⟨s, reach, reading, (chunks_exact empty reach 0).1⟩

end Darner.ChunkStore
