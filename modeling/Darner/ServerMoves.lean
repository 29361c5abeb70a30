import Darner.QueuePartition
import Darner.Server

/-! What one callback of the event loop does to the items of the queues. The calls
that a callback makes are of two kinds: those that take an item, remove it or give
it back, which are the deeds of the connection, and all others, which are calm:
they push items, read, reply and make queues, and leave alone every item that is
there and whoever holds it. -/

namespace Darner.ServerMoves
open OrderedStore LabelledRuns StreamMoves

def readerOn (address : ℕ) (h : Handler) : Option IQStream :=
  if h.popStream.queue = some address then some h.popStream else none

def writerOn (address : ℕ) (h : Handler) : Option OQStream :=
  if h.pushStream.queue = some address then some h.pushStream else none

def config (s : Server) (address : ℕ) : Config :=
  ⟨s.object address, s.conns.filterMap (readerOn address), s.conns.filterMap (writerOn address)⟩

variable {s s' t u : Server} {i address : ℕ}

theorem readerOn_open {h : Handler} (isOpen : h.popStream.queue = some address) :
    readerOn address h = some h.popStream := if_pos isOpen

theorem readerOn_none {h : Handler} (away : h.popStream.queue ≠ some address) :
    readerOn address h = none := if_neg away

theorem writerOn_none {h : Handler} (away : h.pushStream.queue ≠ some address) :
    writerOn address h = none := if_neg away

theorem writerOn_eq {h : Handler}
    (only : h.pushStream.queue = some address ∨ h.pushStream.queue = none) :
    writerOn address h = writer h.pushStream := by
  rcases only with isOpen | closed
  · rw [writerOn, if_pos isOpen, writer_open (by rw [isOpen]; rfl)]
  · rw [writerOn, if_neg (by rw [closed]; simp), writer_closed closed]

/-- What the items, the chunks and the streams do not see. -/
structure Unseen (q q' : Queue) : Prop where
  journal : q'.journal = q.journal
  head : q'.queueHead = q.queueHead
  tail : q'.queueTail = q.queueTail
  chunks : q'.chunksHead = q.chunksHead
  itemsOpen : q'.itemsOpen = q.itemsOpen
  returned : q'.returned = q.returned

/-- A move whose counters fit their words and whose chunks are not empty, or a
change that is not seen. -/
inductive Change : Config → Config → Prop where
  | move {c c' : Config} (move : Move (· < wordSize) (· ≠ []) c c') : Change c c'
  | unseen {q q' : Queue} {readers : List IQStream} {writers : List OQStream}
      (unseen : Unseen q q') : Change ⟨q, readers, writers⟩ ⟨q', readers, writers⟩

abbrev Changes : Config → Config → Prop := Relation.ReflTransGen Change

theorem Changes.invariant {P : Config → Prop} (keep : ∀ c c', P c → Change c c' → P c')
    {c c' : Config} (changes : Changes c c') (start : P c) : P c' := by
  induction changes with
  | refl => exact start
  | tail _ last ih => exact keep _ _ ih last

theorem changes_moves {c c' : Config} (moves : Moves (· < wordSize) (· ≠ []) c c') :
    Changes c c' := by
  induction moves with
  | refl => exact .refl
  | tail _ last ih => exact ih.tail (.move last)

theorem conn_row (there : i < s.conns.length) : s.conns[i]? = some (s.conn i) := by
  simp [Server.conn, there]

theorem config_setConn {h : Handler} (there : i < s.conns.length)
    (reader : readerOn address h = readerOn address (s.conn i))
    (writer : writerOn address h = writerOn address (s.conn i)) :
    config (s.setConn i h) address = config s address := by
  have row := conn_row there
  unfold config
  congr 1
  · exact view_set_same _ row reader
  · exact view_set_same _ row writer

theorem changes_set {q : Queue} {h : Handler} (there : i < s.conns.length)
    (made : address < s.objects.length)
    (here : ∀ readers writers, Changes
      ⟨s.object address, (readerOn address (s.conn i)).toList ++ readers,
        (writerOn address (s.conn i)).toList ++ writers⟩
      ⟨q, (readerOn address h).toList ++ readers, (writerOn address h).toList ++ writers⟩)
    (elsewhere : ∀ other ≠ address, readerOn other h = readerOn other (s.conn i) ∧
      writerOn other h = writerOn other (s.conn i)) (other : ℕ) :
    Changes (config s other) (config ((s.setObject address q).setConn i h) other) := by
  by_cases same : other = address
  · subst same
    have row := conn_row there
    obtain ⟨readers, left, left'⟩ := view_set (readerOn other) row
    obtain ⟨writers, right, right'⟩ := view_set (writerOn other) row
    have first : Change (config s other) ⟨s.object other, _, _⟩ := .move (.perm left right)
    have last : Change ⟨q, (readerOn other h).toList ++ readers,
        (writerOn other h).toList ++ writers⟩ (config ((s.setObject other q).setConn i h) other) := by
      unfold config
      rw [Server.object_setConn, Server.object_setObject_self q made]
      exact .move (.perm (left' h).symm (right' h).symm)
    exact ((Relation.ReflTransGen.single first).trans (here readers writers)).tail last
  · have kept := config_setConn (s := s.setObject address q) there (elsewhere other same).1
      (elsewhere other same).2
    have object := Server.object_setObject_ne s q same
    have eq : config (s.setObject address q) other = config s other := by
      rw [config, object]
      rfl
    rw [kept, eq]

/-- No item is taken, removed or given back, and only new entries are put. -/
structure Quiet (q q' : Queue) : Prop where
  head : q.queueHead.id ≤ q'.queueHead.id
  tail : q'.queueTail = q.queueTail
  returned : q'.returned = q.returned
  entries : ∀ id, id < q.queueHead.id →
    q'.contents.lookup ⟨.queue, id⟩ = q.contents.lookup ⟨.queue, id⟩

theorem Quiet.refl (q : Queue) : Quiet q q := ⟨le_refl _, rfl, rfl, fun _ _ => rfl⟩

theorem Quiet.trans {q q' q'' : Queue} (first : Quiet q q') (second : Quiet q' q'') :
    Quiet q q'' where
  head := first.head.trans second.head
  tail := second.tail.trans first.tail
  returned := second.returned.trans first.returned
  entries id below :=
    (second.entries id (lt_of_lt_of_le below first.head)).trans (first.entries id below)

theorem quiet_same {q q' : Queue} (same : Queue.SameItems q q') : Quiet q q' :=
  ⟨by rw [same.head], same.tail, same.returned, fun id _ => same.entries id⟩

theorem Unseen.same {q q' : Queue} (unseen : Unseen q q') : Queue.SameItems q q' :=
  ⟨unseen.head, unseen.tail, unseen.returned, unseen.itemsOpen, fun _ => by
    rw [Queue.contents, Queue.contents, unseen.journal]⟩

theorem quiet_pushValue {q q' : Queue} {value : Bytes} {sync ok : Bool} {id : ℕ}
    (push : q.pushValue value sync ok = .ok (id, q')) : Quiet q q' := by
  obtain ⟨-, rfl⟩ := Queue.pushValue_ok push
  have put : Quiet q (q.pushed value sync) := by
    refine ⟨Nat.le_succ _, rfl, rfl, fun id below => ?_⟩
    rw [Queue.lookup_pushed, if_neg]
    intro same
    rw [← same] at below
    exact absurd below (lt_irrefl _)
  exact put.trans (quiet_same (Queue.sameItems_wakeUp _))

theorem quiet_store {stream stream' : OQStream} {q q' : Queue} {chunk : Bytes} {stray : UInt8}
    {ok : Bool} (store : stream.store q chunk stray ok = .ok (stream', q')) : Quiet q q' := by
  rcases OQStream.store_ok store with ⟨-, id, push, -⟩ | ⟨-, put, -⟩
  · exact quiet_pushValue push
  · exact quiet_same (Queue.sameItems_writeChunk put)

theorem quiet_finish (stream : OQStream) (q : Queue) (ok : Bool) :
    Quiet q (stream.finish q ok).2.2 := by
  rcases stream.finish_cases q ok with ⟨-, h⟩ | ⟨-, -, h⟩ | ⟨-, -, ⟨e, h⟩ | ⟨id, q', push, h⟩⟩
  · rw [h]
    exact .refl q
  · rw [h]
    exact .refl q
  · rw [h]
    exact .refl q
  · rw [h]
    exact quiet_pushValue push

theorem quiet_write (stream : OQStream) (q : Queue) (chunk : Bytes) (stray : UInt8) (io : Io) :
    Quiet q (stream.write q chunk stray io).2.2 := by
  rcases stream.write_cases q chunk stray io with
    ⟨-, h⟩ | ⟨-, -, ⟨e, -, h⟩ | ⟨stream', q', store, h⟩⟩
  · rw [h]
    exact .refl q
  · rw [h]
    exact .refl q
  · rw [h]
    exact (quiet_store store).trans (quiet_finish _ q' _)

theorem quiet_oopen (stream : OQStream) (address : ℕ) (q : Queue) (count : ℕ) (sync : Bool) :
    Quiet q (stream.open_ address q count sync).2.2 := by
  rcases stream.open_queue address q count sync with same | reserved
  · rw [same]
    exact .refl q
  · rw [reserved]
    exact quiet_same (Queue.sameItems_reserveChunks q count)

theorem quiet_odestruct (stream : OQStream) (q : Queue) (ok : Bool) :
    Quiet q (stream.destruct q ok) := by
  rcases stream.destruct_queue q ok with same | erased
  · rw [same]
    exact .refl q
  · exact quiet_same (Queue.sameItems_eraseChunks erased)

def Holds (s : Server) (i address id : ℕ) : Prop :=
  (s.conn i).popStream.queue = some address ∧ (s.conn i).popStream.id = id

theorem mem_readers {id : ℕ} (there : i < s.conns.length) (held : Holds s i address id) :
    (s.conn i).popStream ∈ (config s address).readers := by
  refine List.mem_filterMap.mpr ⟨s.conn i, ?_, readerOn_open held.1⟩
  exact List.mem_of_getElem? (conn_row there)

theorem Holds.there {id : ℕ} (held : Holds s i address id) : i < s.conns.length := by
  by_contra beyond
  have isOpen := held.1
  rw [Server.conn_beyond (by omega)] at isOpen
  cases isOpen

theorem Holds.mem {id : ℕ} (held : Holds s i address id) : id ∈ QueuePartition.heldIds (config s address) := by
  have mem := mem_readers held.there held
  rw [← held.2]
  exact List.mem_map_of_mem mem

def Made (s : Server) : Prop :=
  ∀ j address, (s.conn j).pushStream.queue = some address → address < s.objects.length

def Named (s : Server) : Prop :=
  ∀ name address, s.queues.lookup name = some address → address < s.objects.length

/-- Connection `i` makes calls that are no deeds. -/
structure Calm (i : ℕ) (s s' : Server) : Prop where
  changes : ∀ address, Changes (config s address) (config s' address)
  quiet : ∀ address, Quiet (s.object address) (s'.object address)
  others : ∀ j ≠ i, s'.conn j = s.conn j
  held : ∀ address id, Holds s' i address id ↔ Holds s i address id
  conns : s.conns.length ≤ s'.conns.length
  made : Made s → Made s'
  named : Named s → Named s'
  chunkSize : s'.chunkSize = s.chunkSize

theorem Calm.refl (i : ℕ) (s : Server) : Calm i s s :=
  ⟨fun _ => .refl, fun _ => .refl _, fun _ _ => rfl, fun _ _ => .rfl, le_refl _, fun h => h, fun h => h, rfl⟩

theorem Calm.trans (first : Calm i s t) (second : Calm i t u) : Calm i s u where
  changes a := (first.changes a).trans (second.changes a)
  quiet a := (first.quiet a).trans (second.quiet a)
  others j ne := (second.others j ne).trans (first.others j ne)
  held a id := (second.held a id).trans (first.held a id)
  conns := first.conns.trans second.conns
  made h := second.made (first.made h)
  named h := second.named (first.named h)
  chunkSize := second.chunkSize.trans first.chunkSize

theorem Calm.closed_iff (calm : Calm i s t) :
    (t.conn i).popStream.queue = none ↔ (s.conn i).popStream.queue = none := by
  have iff : ∀ u : Server, (u.conn i).popStream.queue = none ↔ ∀ a id, ¬Holds u i a id := by
    intro u
    cases isOpen : (u.conn i).popStream.queue with
    | none => simp [Holds, isOpen]
    | some a =>
      simp only [reduceCtorEq, false_iff]
      exact fun none => none a _ ⟨isOpen, rfl⟩
  rw [iff, iff]
  exact forall_congr' fun a => forall_congr' fun id => not_congr (calm.held a id)

theorem Made.setConn {h : Handler} (made : Made s) (length : s.objects.length ≤ t.objects.length)
    (conns : t.conns = s.conns.set i h)
    (push : ∀ address, h.pushStream.queue = some address → address < t.objects.length) :
    Made t := by
  intro j a isOpen
  by_cases same : j = i
  · subst same
    by_cases there : j < s.conns.length
    · have conn : t.conn j = h := by simp [Server.conn, conns, there]
      rw [conn] at isOpen
      exact push a isOpen
    · rw [Server.conn_beyond (by rw [conns, List.length_set]; omega)] at isOpen
      cases isOpen
  · have conn : t.conn j = s.conn j := by
      simp [Server.conn, conns, List.getElem?_set_ne (Ne.symm same)]
    rw [conn] at isOpen
    exact lt_of_lt_of_le (made j a isOpen) length

theorem calm_setConn {h : Handler} (there : i < s.conns.length)
    (pop : ∀ address, readerOn address h = readerOn address (s.conn i))
    (push : ∀ address, writerOn address h = writerOn address (s.conn i)) :
    Calm i s (s.setConn i h) where
  changes a := by rw [config_setConn there (pop a) (push a)]
  quiet a := .refl _
  others j ne := Server.conn_setConn_ne s h ne
  held a id := by
    rw [Holds, Holds, Server.conn_setConn_self h there]
    have same := pop a
    unfold readerOn at same
    split at same <;> split at same
    case isTrue.isTrue here there => rw [Option.some.inj same]
    case isTrue.isFalse => cases same
    case isFalse.isTrue => cases same
    case isFalse.isFalse away away' => simp [away, away']
  conns := by rw [Server.setConn, List.length_set]
  made made := by
    refine made.setConn (le_refl _) rfl fun a isOpen => ?_
    have same := push a
    rw [writerOn, if_pos isOpen] at same
    by_contra beyond
    rw [writerOn_none] at same
    · cases same
    · intro isOpen'
      exact beyond (made i a isOpen')
  named h := h
  chunkSize := rfl

theorem calm_setPending (there : i < s.conns.length) (pending : Pending) :
    Calm i s (s.setPending i pending) :=
  calm_setConn there (fun _ => rfl) fun _ => rfl

theorem calm_stats (i : ℕ) (s : Server) (stats : Stats) : Calm i s { s with stats := stats } :=
  ⟨fun _ => .refl, fun _ => .refl _, fun _ _ => rfl, fun _ _ => .rfl, le_refl _, fun h => h, fun h => h, rfl⟩

theorem calm_unseen {q : Queue} (i : ℕ) (made : address < s.objects.length)
    (unseen : Unseen (s.object address) q) : Calm i s (s.setObject address q) where
  changes a := by
    by_cases same : a = address
    · subst same
      rw [config, config, Server.object_setObject_self q made]
      exact .single (.unseen unseen)
    · rw [config, config, Server.object_setObject_ne s q same]
      exact .refl
  quiet a := by
    by_cases same : a = address
    · subst same
      rw [Server.object_setObject_self q made]
      exact quiet_same unseen.same
    · rw [Server.object_setObject_ne s q same]
      exact .refl _
  others j _ := rfl
  held _ _ := .rfl
  conns := le_refl _
  made made j a isOpen := by
    rw [Server.setObject, List.length_set]
    exact made j a isOpen
  named named name a found := by
    rw [Server.setObject, List.length_set]
    exact named name a found
  chunkSize := rfl

theorem calm_withQueue (i : ℕ) (s : Server) (name : Bytes) : Calm i s (s.withQueue name) := by
  have unseen : ∀ a, Unseen (s.object a) ((s.withQueue name).object a) := by
    intro a
    by_cases new : a = s.objects.length
    · subst new
      rw [Server.object_withQueue_self, Server.object_beyond (le_refl _)]
      exact ⟨rfl, rfl, rfl, rfl, rfl, rfl⟩
    · rw [Server.object_withQueue_ne s name new]
      exact ⟨rfl, rfl, rfl, rfl, rfl, rfl⟩
  exact
    { changes := fun a => .single (.unseen (unseen a))
      quiet := fun a => quiet_same (unseen a).same
      others := fun _ _ => rfl, held := fun _ _ => .rfl, conns := le_refl _
      made := fun made j a isOpen => by
        rw [Server.withQueue, List.length_append]
        exact Nat.lt_add_right _ (made j a isOpen)
      named := fun named other a found => by
        have length : (s.withQueue name).objects.length = s.objects.length + 1 := List.length_append
        rw [Server.lookup_withQueue] at found
        rw [length]
        split at found
        · rw [← Option.some.inj found]
          exact Nat.lt_succ_self _
        · exact Nat.lt_succ_of_lt (named other a found)
      chunkSize := rfl }

theorem calm_popRead (there : i < s.conns.length)
    (made : ∀ address, (s.conn i).popStream.queue = some address → address < s.objects.length)
    (io : Io) : Calm i s (s.popRead i io).2 := by
  have queue := (s.conn i).popStream.queue_read (s.object ((s.conn i).popStream.queue.getD 0)) io
  have id := (s.conn i).popStream.id_read (s.object ((s.conn i).popStream.queue.getD 0)) io
  refine
    { changes := ?_
      quiet := fun a => .refl _
      others := fun j ne => Server.conn_setConn_ne s _ ne
      held := ?_, conns := ?_
      made := fun made => made.setConn (le_refl _) rfl fun a isOpen => made i a isOpen
      named := fun h => h
      chunkSize := rfl }
  · cases isOpen : (s.conn i).popStream.queue with
    | none =>
      intro a
      rw [Server.popRead, config_setConn there]
      · rw [readerOn_none, readerOn_none]
        · rw [isOpen]
          simp
        · rw [queue, isOpen]
          simp
      · rfl
    | some a =>
      have moved := changes_set (q := s.object a) there (made a isOpen)
        (h := { s.conn i with popStream := ((s.conn i).popStream.read (s.object a) io).2 })
      rw [Server.setObject_same] at moved
      rw [isOpen] at queue
      have target : (s.popRead i io).2 = s.setConn i
          { s.conn i with popStream := ((s.conn i).popStream.read (s.object a) io).2 } := by
        rw [Server.popRead, isOpen]
        rfl
      rw [target]
      apply moved
      · intro readers writers
        rw [readerOn_open isOpen, readerOn_open queue]
        exact .single (.move (.read (by rw [isOpen]; rfl) io))
      · intro b ne
        rw [readerOn_none, readerOn_none]
        · exact ⟨rfl, rfl⟩
        · rw [isOpen]
          simpa using Ne.symm ne
        · simp only [Option.getD_some] at queue
          rw [queue]
          simpa using Ne.symm ne
  · intro a n
    rw [Holds, Holds, Server.popRead, Server.conn_setConn_self _ there]
    simp only
    rw [queue, id]
  · change s.conns.length ≤ (s.conns.set i _).length
    rw [List.length_set]

theorem calm_pushStream {q : Queue} {stream : OQStream} (there : i < s.conns.length)
    (made : address < s.objects.length)
    (only : (s.conn i).pushStream.queue = some address ∨ (s.conn i).pushStream.queue = none)
    (only' : stream.queue = some address ∨ stream.queue = none)
    (moves : ∀ readers rest, Moves (· < wordSize) (· ≠ [])
      ⟨s.object address, readers, (writer (s.conn i).pushStream).toList ++ rest⟩
      ⟨q, readers, (writer stream).toList ++ rest⟩)
    (quiet : Quiet (s.object address) q) :
    Calm i s ((s.setObject address q).setConn i { s.conn i with pushStream := stream }) where
  changes := by
    apply changes_set there made
    · intro readers writers
      rw [writerOn_eq only, writerOn_eq only']
      exact changes_moves (moves _ writers)
    · intro b ne
      refine ⟨rfl, ?_⟩
      rw [writerOn_none, writerOn_none]
      · rcases only with h | h <;> simp [h, Ne.symm ne]
      · rcases only' with h | h <;> simp [h, Ne.symm ne]
  quiet a := by
    by_cases same : a = address
    · subst same
      rw [Server.object_setConn, Server.object_setObject_self q made]
      exact quiet
    · rw [Server.object_setConn, Server.object_setObject_ne s q same]
      exact .refl _
  others j ne := Server.conn_setConn_ne _ _ ne
  held a id := by rw [Holds, Holds, Server.conn_setObject_setConn address q _ there]
  conns := by
    change s.conns.length ≤ (s.conns.set i _).length
    rw [List.length_set]
  made before := by
    have length : s.objects.length =
        ((s.setObject address q).setConn i { s.conn i with pushStream := stream }).objects.length :=
      List.length_set.symm
    refine before.setConn length.le rfl fun a isOpen => ?_
    rw [← length]
    rcases only' with here | closed
    · rw [show stream.queue = some a from isOpen] at here
      exact Option.some.inj here ▸ made
    · rw [show stream.queue = some a from isOpen] at closed
      cases closed
  named named name a found :=
    lt_of_lt_of_eq (named name a found) List.length_set.symm
  chunkSize := rfl

theorem pushOpen_ok {count : ℕ} {sync : Bool} (h : s.pushOpen i address count sync = .ok s') :
    (s.conn i).pushStream.queue = none ∧
    s' = (s.setObject address ((s.conn i).pushStream.open_ address (s.object address) count sync).2.2).setConn
      i { s.conn i with
          pushStream := ((s.conn i).pushStream.open_ address (s.object address) count sync).2.1 } := by
  unfold Server.pushOpen at h
  split at h
  · cases h
  case h_2 result =>
    rw [result]
    refine ⟨?_, (Except.ok.inj h).symm⟩
    unfold OQStream.open_ at result
    split at result
    · cases result
    case isFalse closed => simpa using closed

theorem queue_oopen (stream : OQStream) (address : ℕ) (q : Queue) (count : ℕ) (sync : Bool)
    (closed : stream.queue = none) : (stream.open_ address q count sync).2.1.queue = some address := by
  simp [OQStream.open_, closed]

theorem calm_pushOpen {count : ℕ} {sync : Bool} (there : i < s.conns.length)
    (made : address < s.objects.length) (h : s.pushOpen i address count sync = .ok s')
    (fits : (s'.object address).chunksHead.id < wordSize) : Calm i s s' := by
  obtain ⟨closed, rfl⟩ := pushOpen_ok h
  have self := Server.object_setObject_self
    ((s.conn i).pushStream.open_ address (s.object address) count sync).2.2 made
  refine calm_pushStream there made (.inr closed)
    (.inl (queue_oopen _ address _ count sync closed)) (fun readers rest => ?_)
    (quiet_oopen _ address _ count sync)
  exact moves_oopen _ address count sync (self ▸ fits) readers rest

theorem queue_write (stream : OQStream) (q : Queue) (chunk : Bytes) (stray : UInt8) (io : Io) :
    (stream.write q chunk stray io).2.1.queue = stream.queue ∨
      (stream.write q chunk stray io).2.1.queue = none := by
  rcases stream.write_cases q chunk stray io with
    ⟨-, h⟩ | ⟨-, -, ⟨e, -, h⟩ | ⟨stream', q', store, h⟩⟩
  · rw [h]
    exact .inl rfl
  · rw [h]
    exact .inl rfl
  · have kept : (stream'.advance chunk.length).queue = stream.queue := by
      rcases OQStream.store_ok store with ⟨-, id, -, rfl⟩ | ⟨-, -, rfl⟩ <;> rfl
    rw [h]
    rcases (stream'.advance chunk.length).finish_cases q' (io 1) with
      ⟨-, h⟩ | ⟨-, -, h⟩ | ⟨-, -, ⟨e, h⟩ | ⟨id, q'', -, h⟩⟩
    · rw [h]
      exact .inl kept
    · rw [h]
      exact .inr rfl
    · rw [h]
      exact .inl kept
    · rw [h]
      exact .inr rfl

theorem size_write (stream : OQStream) (q : Queue) (chunk : Bytes) (stray : UInt8) (io : Io) :
    (stream.write q chunk stray io).2.1.header.size ≤ stream.header.size + chunk.length := by
  rcases stream.write_cases q chunk stray io with
    ⟨-, h⟩ | ⟨-, -, ⟨e, -, h⟩ | ⟨stream', q', store, h⟩⟩
  · rw [h]
    exact Nat.le_add_right _ _
  · rw [h]
    exact Nat.le_add_right _ _
  · rw [h, size_finish]
    rcases OQStream.store_ok store with ⟨-, id, -, rfl⟩ | ⟨-, -, rfl⟩ <;> exact le_refl _

theorem calm_pushWrite {chunk : Bytes} (stray : UInt8) (io : Io) (there : i < s.conns.length)
    (made : ∀ address, (s.conn i).pushStream.queue = some address → address < s.objects.length)
    (fits : (s.conn i).pushStream.header.size + chunk.length < wordSize)
    (full : (s.conn i).pushStream.header.end_ > 1 → chunk ≠ []) :
    Calm i s (s.pushWrite i chunk stray io).2 := by
  unfold Server.pushWrite
  split
  · exact .refl i s
  case h_2 a isOpen =>
    have only := queue_write (s.conn i).pushStream (s.object a) chunk stray io
    rw [isOpen] at only
    refine calm_pushStream there (made a isOpen) (.inl isOpen) only (fun readers rest => ?_)
      (quiet_write _ _ chunk stray io)
    refine moves_owrite _ chunk stray io ?_ ?_ readers rest
    · exact lt_of_le_of_lt (size_write _ _ _ _ _) fits
    · exact full

theorem calm_dropPush (ok : Bool) (there : i < s.conns.length)
    (made : ∀ address, (s.conn i).pushStream.queue = some address → address < s.objects.length) :
    Calm i s (s.dropPush i ok) := by
  unfold Server.dropPush
  split
  · exact .refl i s
  case h_2 a isOpen =>
    refine calm_pushStream there (made a isOpen) (.inl isOpen) (.inr rfl) (fun readers rest => ?_)
      (quiet_odestruct _ _ ok)
    simpa [writer] using moves_odestruct _ ok readers rest

theorem unseen_destroy (q : Queue) (taken : List Bytes) : Unseen q (q.destroy taken) := by
  unfold Queue.destroy
  split <;> exact ⟨rfl, rfl, rfl, rfl, rfl, rfl⟩

theorem calm_withoutQueue {name : Bytes} (i : ℕ) (made : address < s.objects.length) :
    Calm i s (s.withoutQueue name address) := by
  have destroyed := calm_unseen i made (unseen_destroy (s.object address) s.paths)
  exact { destroyed with
    named := fun named other b found =>
      destroyed.named named other b (Server.lookup_erase found) }

theorem calm_eraseQueue {name : Bytes} {recreate : Bool} (i : ℕ) (made : Named s)
    (erase : s.eraseQueue name recreate = .ok s') : Calm i s s' := by
  rcases Server.eraseQueue_ok erase with rfl | ⟨a, found, last⟩
  · exact .refl i s'
  · have gone : Calm i s (s.withoutQueue name a) := calm_withoutQueue i (made name a found)
    rcases last with rfl | rfl
    · exact gone
    · exact gone.trans (calm_withQueue i _ name)

theorem calm_accept (s : Server) (stats : Stats) :
    Calm s.conns.length s { s with conns := s.conns ++ [{}], stats := stats } where
  changes a := by
    have same : config { s with conns := s.conns ++ [{}], stats := stats } a = config s a := by
      simp [config, readerOn, writerOn, Server.object]
    rw [same]
  quiet a := .refl _
  others j ne := by
    simp only [Server.conn]
    congr 1
    rcases Nat.lt_or_gt_of_ne ne with old | beyond
    · exact List.getElem?_append_left old
    · rw [List.getElem?_eq_none (by simp; omega), List.getElem?_eq_none (by omega)]
  held a id := by simp [Holds, Server.conn]
  conns := by simp
  made made j a isOpen := by
    by_cases old : j < s.conns.length
    · rw [Server.conn, List.getElem?_append_left old] at isOpen
      exact made j a isOpen
    · rw [Server.conn, List.getElem?_append_right (by omega)] at isOpen
      rcases Nat.eq_zero_or_pos (j - s.conns.length) with first | beyond
      · simp [first] at isOpen
      · rw [List.getElem?_eq_none (by rw [List.length_singleton]; omega)] at isOpen
        cases isOpen
  named h := h
  chunkSize := rfl

inductive Deed where
  | take (address id : ℕ)
  | remove (address id : ℕ)
  | giveBack (address id : ℕ)

structure PopEnds (i address id : ℕ) (erase : Bool) (s s' : Server) : Prop where
  there : i < s.conns.length
  made : address < s.objects.length
  held : Holds s i address id
  ended : ∃ q ok stream, (s.object address).popEnd erase id (s.conn i).popStream.header ok = .ok q ∧
    stream.queue = none ∧
    s' = (s.setObject address q).setConn i { s.conn i with popStream := stream }

def Did (i : ℕ) : Deed → Server → Server → Prop
  | .take address id, s, s' => i < s.conns.length ∧ (s.conn i).popStream.queue = none ∧
      ∃ q, (s.object address).popBegin = some (id, q) ∧
        s' = (s.setObject address q).setConn i
          { s.conn i with popStream := { queue := some address, id := id } }
  | .remove address id, s, s' => PopEnds i address id true s s'
  | .giveBack address id, s, s' => PopEnds i address id false s s'

/-- Connection `i` does these deeds, in this order, and makes calm calls between them. -/
def After (i : ℕ) : List Deed → Server → Server → Prop
  | [], s, s' => Calm i s s'
  | deed :: deeds, s, s' => ∃ t t', Calm i s t ∧ Did i deed t t' ∧ After i deeds t' s'

theorem Calm.after {deeds : List Deed} (first : Calm i s t) (rest : After i deeds t u) :
    After i deeds s u := by
  cases deeds with
  | nil => exact first.trans rest
  | cons deed deeds =>
    obtain ⟨v, v', calm, did, after⟩ := rest
    exact ⟨v, v', first.trans calm, did, after⟩

theorem After.append {deeds deeds' : List Deed} (first : After i deeds s t)
    (second : After i deeds' t u) : After i (deeds ++ deeds') s u := by
  induction deeds generalizing s with
  | nil => exact Calm.after first second
  | cons deed deeds ih =>
    obtain ⟨v, v', calm, did, rest⟩ := first
    exact ⟨v, v', calm, did, ih rest⟩

theorem After.calm {deeds : List Deed} (first : After i deeds s t) (last : Calm i t u) :
    After i deeds s u := by
  have joined := first.append (show After i [] t u from last)
  rwa [List.append_nil] at joined

theorem Did.after {deed : Deed} (did : Did i deed s t) : After i [deed] s t :=
  ⟨s, t, .refl i s, did, .refl i t⟩

theorem popBegin_made {id : ℕ} {q : Queue} (pop : (s.object address).popBegin = some (id, q)) :
    address < s.objects.length := by
  by_contra beyond
  rw [Server.object_beyond (by omega)] at pop
  cases pop

theorem PopEnds.changes {id : ℕ} {erase : Bool} (ends : PopEnds i address id erase s s') (other : ℕ) :
    Changes (config s other) (config s' other) := by
  obtain ⟨there, made, ⟨isOpen, rfl⟩, q, ok, stream, pop, closed, rfl⟩ := ends
  refine changes_set there made ?_ ?_ other
  · intro readers writers
    rw [readerOn_open isOpen, readerOn_none (by rw [closed]; simp)]
    exact .single (.move (.popEnd pop))
  · intro b ne
    rw [readerOn_none (by rw [closed]; simp), readerOn_none (by rw [isOpen]; simpa using Ne.symm ne)]
    exact ⟨rfl, rfl⟩

theorem Did.changes {deed : Deed} (did : Did i deed s s') (other : ℕ) :
    Changes (config s other) (config s' other) := by
  cases deed with
  | take address id =>
    obtain ⟨there, closed, q, pop, rfl⟩ := did
    refine changes_set there (popBegin_made pop) ?_ ?_ other
    · intro readers writers
      rw [readerOn_none (by rw [closed]; simp), readerOn_open rfl]
      exact .single (.move (.popBegin address pop))
    · intro b ne
      rw [readerOn_none (by simpa using Ne.symm ne), readerOn_none (by rw [closed]; simp)]
      exact ⟨rfl, rfl⟩
  | remove address id => exact PopEnds.changes did other
  | giveBack address id => exact PopEnds.changes did other

theorem Did.others {deed : Deed} (did : Did i deed s s') {j : ℕ} (ne : j ≠ i) :
    s'.conn j = s.conn j := by
  cases deed with
  | take address id =>
    obtain ⟨-, -, q, -, rfl⟩ := did
    exact Server.conn_setConn_ne _ _ ne
  | remove address id | giveBack address id =>
    obtain ⟨q, ok, stream, -, -, rfl⟩ := PopEnds.ended did
    exact Server.conn_setConn_ne _ _ ne

theorem Did.conns {deed : Deed} (did : Did i deed s s') :
    s'.conns.length = s.conns.length := by
  cases deed with
  | take address id =>
    obtain ⟨-, -, q, -, rfl⟩ := did
    exact List.length_set
  | remove address id | giveBack address id =>
    obtain ⟨q, ok, stream, -, -, rfl⟩ := PopEnds.ended did
    exact List.length_set

theorem After.changes {deeds : List Deed} (after : After i deeds s s') (address : ℕ) :
    Changes (config s address) (config s' address) := by
  induction deeds generalizing s with
  | nil => exact Calm.changes after address
  | cons deed deeds ih =>
    obtain ⟨t, t', calm, did, rest⟩ := after
    exact ((calm.changes address).trans (did.changes address)).trans (ih rest)

theorem After.others {deeds : List Deed} (after : After i deeds s s') {j : ℕ} (ne : j ≠ i) :
    s'.conn j = s.conn j := by
  induction deeds generalizing s with
  | nil => exact Calm.others after j ne
  | cons deed deeds ih =>
    obtain ⟨t, t', calm, did, rest⟩ := after
    exact (ih rest).trans ((did.others ne).trans (calm.others j ne))

theorem Did.made {deed : Deed} (did : Did i deed s s') (made : Made s) : Made s' := by
  cases deed with
  | take address id =>
    obtain ⟨-, -, q, -, rfl⟩ := did
    exact made.setConn (by simp [Server.setObject, Server.setConn]) rfl fun a isOpen => by
      simpa [Server.setObject, Server.setConn] using made i a isOpen
  | remove address id | giveBack address id =>
    obtain ⟨q, ok, stream, -, -, rfl⟩ := PopEnds.ended did
    exact made.setConn (by simp [Server.setObject, Server.setConn]) rfl fun a isOpen => by
      simpa [Server.setObject, Server.setConn] using made i a isOpen

theorem After.made {deeds : List Deed} (after : After i deeds s s') (made : Made s) : Made s' := by
  induction deeds generalizing s with
  | nil => exact Calm.made after made
  | cons deed deeds ih =>
    obtain ⟨t, t', calm, did, rest⟩ := after
    exact ih rest (did.made (calm.made made))

theorem Did.named {deed : Deed} (did : Did i deed s s') (named : Named s) : Named s' := by
  cases deed with
  | take address id =>
    obtain ⟨-, -, q, -, rfl⟩ := did
    exact fun name a found => lt_of_lt_of_eq (named name a found) List.length_set.symm
  | remove address id | giveBack address id =>
    obtain ⟨q, ok, stream, -, -, rfl⟩ := PopEnds.ended did
    exact fun name a found => lt_of_lt_of_eq (named name a found) List.length_set.symm

theorem Did.chunkSize {deed : Deed} (did : Did i deed s s') : s'.chunkSize = s.chunkSize := by
  cases deed with
  | take address id =>
    obtain ⟨-, -, q, -, rfl⟩ := did
    rfl
  | remove address id | giveBack address id =>
    obtain ⟨q, ok, stream, -, -, rfl⟩ := PopEnds.ended did
    rfl

theorem After.chunkSize {deeds : List Deed} (after : After i deeds s s') :
    s'.chunkSize = s.chunkSize := by
  induction deeds generalizing s with
  | nil => exact Calm.chunkSize after
  | cons deed deeds ih =>
    obtain ⟨t, t', calm, did, rest⟩ := after
    exact (ih rest).trans (did.chunkSize.trans calm.chunkSize)

end Darner.ServerMoves
