import Darner.QueueStreams

/-! What a stream call can do to a queue. A configuration is a queue with the
streams that are open on it; `Move` lists every way in which a call changes it,
once and for all, so that an invariant has one case for each way and not one for
each call. `bounded` is what is known of the counters a move produces, and `solid`
of the chunks it writes. -/

namespace Darner.StreamMoves
open OrderedStore LabelledRuns

structure Config where
  queue : Queue
  readers : List IQStream
  writers : List OQStream

inductive Move (bounded : ℕ → Prop) (solid : Bytes → Prop) : Config → Config → Prop where
  | perm {q : Queue} {readers readers' : List IQStream} {writers writers' : List OQStream}
      (left : readers.Perm readers') (right : writers.Perm writers') :
      Move bounded solid ⟨q, readers, writers⟩ ⟨q, readers', writers'⟩
  | popBegin {q q' : Queue} {readers : List IQStream} {writers : List OQStream} {id : ℕ}
      (address : ℕ) (h : q.popBegin = some (id, q')) :
      Move bounded solid ⟨q, readers, writers⟩
        ⟨q', { queue := some address, id := id } :: readers, writers⟩
  | read {q : Queue} {s : IQStream} {readers : List IQStream} {writers : List OQStream}
      (isOpen : s.queue.isSome) (io : Io) :
      Move bounded solid ⟨q, s :: readers, writers⟩ ⟨q, (s.read q io).2 :: readers, writers⟩
  | popEnd {q q' : Queue} {s : IQStream} {readers : List IQStream} {writers : List OQStream}
      {erase ok : Bool} (h : q.popEnd erase s.id s.header ok = .ok q') :
      Move bounded solid ⟨q, s :: readers, writers⟩ ⟨q', readers, writers⟩
  | openSingle {q : Queue} {readers : List IQStream} {writers : List OQStream}
      {s : OQStream} (header : s.header = {}) (pos : s.chunkPos = 0) :
      Move bounded solid ⟨q, readers, writers⟩ ⟨q, readers, s :: writers⟩
  | openMulti {q : Queue} {readers : List IQStream} {writers : List OQStream}
      {s : OQStream} {count : ℕ} (several : 1 < count)
      (fits : bounded (q.chunksHead.id + count))
      (header : s.header = (q.reserveChunks count).1) (pos : s.chunkPos = s.header.beg) :
      Move bounded solid ⟨q, readers, writers⟩ ⟨(q.reserveChunks count).2, readers, s :: writers⟩
  | pushItem {q q' : Queue} {readers : List IQStream} {writers : List OQStream} {s : OQStream}
      {chunk : Bytes} {stray : UInt8} {sync ok : Bool} {id : ℕ}
      (single : s.header.end_ ≤ 1) (h : q.push chunk stray sync ok = .ok (id, q')) :
      Move bounded solid ⟨q, readers, s :: writers⟩
        ⟨q', readers, ({ s with id := id } : OQStream).advance chunk.length :: writers⟩
  | writeChunk {q q' : Queue} {readers : List IQStream} {writers : List OQStream} {s : OQStream}
      {chunk : Bytes} {ok : Bool} (multi : s.header.end_ > 1)
      (unfinished : s.chunkPos ≠ s.header.end_) (full : solid chunk)
      (h : q.writeChunk chunk s.chunkPos ok = .ok q') :
      Move bounded solid ⟨q, readers, s :: writers⟩ ⟨q', readers, s.advance chunk.length :: writers⟩
  | publish {q q' : Queue} {readers : List IQStream} {writers : List OQStream} {s : OQStream}
      {ok : Bool} {id : ℕ} (multi : s.header.end_ > 1) (finished : s.chunkPos = s.header.end_)
      (fits : bounded s.header.size) (h : q.pushHeader s.header s.sync ok = .ok (id, q')) :
      Move bounded solid ⟨q, readers, s :: writers⟩ ⟨q', readers, writers⟩
  | cancel {q q' : Queue} {readers : List IQStream} {writers : List OQStream} {s : OQStream}
      {ok : Bool} (multi : s.header.end_ > 1) (h : q.eraseChunks s.header ok = .ok q') :
      Move bounded solid ⟨q, readers, s :: writers⟩ ⟨q', readers, writers⟩
  | drop {q : Queue} {readers : List IQStream} {writers : List OQStream} {s : OQStream} :
      Move bounded solid ⟨q, readers, s :: writers⟩ ⟨q, readers, writers⟩
  | destroy {q : Queue} {readers : List IQStream} {writers : List OQStream}
      (taken : List Bytes) :
      Move bounded solid ⟨q, readers, writers⟩ ⟨q.destroy taken, readers, writers⟩

abbrev Moves (bounded : ℕ → Prop) (solid : Bytes → Prop) : Config → Config → Prop :=
  Relation.ReflTransGen (Move bounded solid)

theorem Moves.invariant {bounded : ℕ → Prop} {solid : Bytes → Prop} {P : Config → Prop}
    (keep : ∀ c c', P c → Move bounded solid c c' → P c') {c c' : Config}
    (moves : Moves bounded solid c c') (start : P c) : P c' := by
  induction moves with
  | refl => exact start
  | tail _ last ih => exact keep _ _ ih last

def reader (s : IQStream) : Option IQStream := if s.queue.isSome then some s else none

def writer (s : OQStream) : Option OQStream := if s.queue.isSome then some s else none

@[simp] theorem reader_closed {s : IQStream} (h : s.queue = none) : reader s = none := by
  simp [reader, h]

@[simp] theorem writer_closed {s : OQStream} (h : s.queue = none) : writer s = none := by
  simp [writer, h]

theorem reader_open {s : IQStream} (h : s.queue.isSome) : reader s = some s := by
  simp [reader, h]

theorem writer_open {s : OQStream} (h : s.queue.isSome) : writer s = some s := by
  simp [writer, h]

variable {bounded : ℕ → Prop} {solid : Bytes → Prop} {q : Queue}

theorem moves_iopen (s : IQStream) (address : ℕ) (rest : List IQStream)
    (writers : List OQStream) :
    Moves bounded solid ⟨q, (reader s).toList ++ rest, writers⟩
      ⟨(s.open_ address q).2.2, (reader (s.open_ address q).2.1).toList ++ rest, writers⟩ := by
  rcases s.open_cases address q with ⟨-, h⟩ | ⟨-, -, h⟩ | ⟨closed, id, q', hp, h⟩
  · rw [h]
  · rw [h]
  · rw [h, reader_closed closed, reader_open (by rfl)]
    exact .single (.popBegin address hp)

theorem moves_iread (s : IQStream) (io : Io) (rest : List IQStream) (writers : List OQStream) :
    Moves bounded solid ⟨q, (reader s).toList ++ rest, writers⟩
      ⟨q, (reader (s.read q io).2).toList ++ rest, writers⟩ := by
  have same := s.queue_read q io
  by_cases isOpen : s.queue.isSome
  · have isOpen' : (s.read q io).2.queue.isSome := by rw [same]; exact isOpen
    rw [reader_open isOpen, reader_open isOpen']
    exact .single (.read isOpen io)
  · have closed : s.queue = none := by simpa using isOpen
    rw [reader_closed closed, reader_closed (same.trans closed)]

theorem moves_iclose {s s' : IQStream} {q' : Queue} {erase ok : Bool}
    (h : s.close q erase ok = .ok (s', q')) (rest : List IQStream) (writers : List OQStream) :
    Moves bounded solid ⟨q, (reader s).toList ++ rest, writers⟩
      ⟨q', (reader s').toList ++ rest, writers⟩ := by
  rcases IQStream.close_ok h with ⟨-, rfl, rfl⟩ | ⟨isOpen, rfl, hp⟩
  · exact .refl
  · rw [reader_open isOpen, reader_closed rfl]
    exact .single (.popEnd hp)

theorem moves_idestruct (s : IQStream) (rest : List IQStream) (writers : List OQStream) :
    Moves bounded solid ⟨q, (reader s).toList ++ rest, writers⟩ ⟨s.destruct q, rest, writers⟩ := by
  by_cases isOpen : s.queue.isSome
  · rw [IQStream.destruct_open isOpen, reader_open isOpen]
    exact .single (.popEnd (Queue.popEnd_return q s.id s.header true))
  · have closed : s.queue = none := by simpa using isOpen
    rw [IQStream.destruct_closed closed, reader_closed closed]
    exact .refl

theorem moves_oopen (s : OQStream) (address count : ℕ) (sync : Bool)
    (fits : bounded (s.open_ address q count sync).2.2.chunksHead.id)
    (readers : List IQStream) (rest : List OQStream) :
    Moves bounded solid ⟨q, readers, (writer s).toList ++ rest⟩
      ⟨(s.open_ address q count sync).2.2, readers,
        (writer (s.open_ address q count sync).2.1).toList ++ rest⟩ := by
  unfold OQStream.open_ at fits ⊢
  by_cases isOpen : s.queue.isSome
  · simpa [isOpen] using .refl
  · have closed : s.queue = none := by simpa using isOpen
    simp only [closed, Option.isSome_none, Bool.false_eq_true, if_false, writer_closed,
      Option.toList_none, List.nil_append] at fits ⊢
    by_cases several : count > 1
    · simp only [several, if_true] at fits ⊢
      rw [writer_open (by rfl)]
      exact .single (.openMulti several fits rfl rfl)
    · simp only [several, if_false]
      rw [writer_open (by rfl)]
      exact .single (.openSingle rfl rfl)

theorem moves_store {s s' : OQStream} {q' : Queue} {chunk : Bytes} {stray : UInt8} {ok : Bool}
    (unfinished : s.chunkPos ≠ s.header.end_) (full : s.header.end_ > 1 → solid chunk)
    (h : s.store q chunk stray ok = .ok (s', q')) (readers : List IQStream) (rest : List OQStream) :
    Moves bounded solid ⟨q, readers, s :: rest⟩ ⟨q', readers, s'.advance chunk.length :: rest⟩ := by
  rcases OQStream.store_ok h with ⟨single, id, hp, rfl⟩ | ⟨multi, hp, rfl⟩
  · exact .single (.pushItem single hp)
  · exact .single (.writeChunk multi unfinished (full multi) hp)

theorem moves_finish (s : OQStream) (ok : Bool) (isOpen : s.queue.isSome)
    (fits : bounded s.header.size) (readers : List IQStream) (rest : List OQStream) :
    Moves bounded solid ⟨q, readers, s :: rest⟩
      ⟨(s.finish q ok).2.2, readers, (writer (s.finish q ok).2.1).toList ++ rest⟩ := by
  rcases s.finish_cases q ok with
    ⟨-, h⟩ | ⟨-, -, h⟩ | ⟨finished, multi, ⟨e, h⟩ | ⟨id, q', hp, h⟩⟩
  · rw [h, writer_open isOpen]
    exact .refl
  · rw [h, writer_closed rfl]
    exact .single .drop
  · rw [h, writer_open isOpen]
    exact .refl
  · rw [h, writer_closed rfl]
    exact .single (.publish multi finished fits hp)

theorem size_finish (s : OQStream) (ok : Bool) :
    (s.finish q ok).2.1.header.size = s.header.size := by
  rcases s.finish_cases q ok with ⟨-, h⟩ | ⟨-, -, h⟩ | ⟨-, -, ⟨e, h⟩ | ⟨id, q', -, h⟩⟩ <;> rw [h]

/-- A write that closes the stream, or that fails after its store, passes through
the configuration in which the chunk is stored and the stream is open. -/
theorem moves_owrite (s : OQStream) (chunk : Bytes) (stray : UInt8) (io : Io)
    (fits : bounded (s.write q chunk stray io).2.1.header.size)
    (full : s.header.end_ > 1 → solid chunk) (readers : List IQStream) (rest : List OQStream) :
    Moves bounded solid ⟨q, readers, (writer s).toList ++ rest⟩
      ⟨(s.write q chunk stray io).2.2, readers,
        (writer (s.write q chunk stray io).2.1).toList ++ rest⟩ := by
  rcases s.write_cases q chunk stray io with
    ⟨-, h⟩ | ⟨isOpen, unfinished, ⟨e, -, h⟩ | ⟨s₁, q₁, hs, h⟩⟩
  · rw [h]
  · rw [h]
  · rw [h, size_finish] at fits
    rw [h, writer_open isOpen]
    have isOpen₁ : (s₁.advance chunk.length).queue.isSome := by
      rcases OQStream.store_ok hs with ⟨-, id, -, rfl⟩ | ⟨-, -, rfl⟩ <;> exact isOpen
    exact (moves_store unfinished full hs readers rest).trans
      (moves_finish _ (io 1) isOpen₁ fits readers rest)

theorem moves_ocancel {s s' : OQStream} {q' : Queue} {ok : Bool}
    (h : s.cancel q ok = .ok (s', q')) (readers : List IQStream) (rest : List OQStream) :
    Moves bounded solid ⟨q, readers, (writer s).toList ++ rest⟩
      ⟨q', readers, (writer s').toList ++ rest⟩ := by
  obtain ⟨isOpen, rfl, ⟨multi, he⟩ | ⟨-, rfl⟩⟩ := OQStream.cancel_ok h
  · rw [writer_open isOpen, writer_closed rfl]
    exact .single (.cancel multi he)
  · rw [writer_open isOpen, writer_closed rfl]
    exact .single .drop

theorem moves_odestruct (s : OQStream) (ok : Bool) (readers : List IQStream)
    (rest : List OQStream) :
    Moves bounded solid ⟨q, readers, (writer s).toList ++ rest⟩ ⟨s.destruct q ok, readers, rest⟩ := by
  unfold OQStream.destruct
  by_cases isOpen : s.queue.isSome
  · rw [if_pos isOpen]
    cases hc : s.cancel q ok with
    | error e =>
      rw [writer_open isOpen]
      exact .single .drop
    | ok pair =>
      obtain ⟨s', q'⟩ := pair
      have moves : Moves bounded solid _ _ := moves_ocancel hc readers rest
      have closed : s'.queue = none := by rw [(OQStream.cancel_ok hc).2.1]
      rwa [writer_closed closed] at moves
  · have closed : s.queue = none := by simpa using isOpen
    rw [if_neg isOpen, writer_closed closed]
    exact .refl

def config (p : Process) : Config :=
  ⟨p.queue, p.iqs.filterMap reader, p.oqs.filterMap writer⟩

theorem moves_setIqstream {p : Process} {i : ℕ} {s s' : IQStream} {q' : Queue}
    (row : p.iqs[i]? = some s)
    (moves : ∀ rest, Moves bounded solid ⟨p.queue, (reader s).toList ++ rest, p.oqs.filterMap writer⟩
      ⟨q', (reader s').toList ++ rest, p.oqs.filterMap writer⟩) :
    Moves bounded solid (config p) (config (p.setIqstream i s' q')) := by
  obtain ⟨rest, before, after⟩ := view_set reader row
  have first : Move bounded solid (config p) ⟨p.queue, (reader s).toList ++ rest, _⟩ :=
    .perm before (.refl _)
  have last : Move bounded solid ⟨q', (reader s').toList ++ rest, p.oqs.filterMap writer⟩
      (config (p.setIqstream i s' q')) := .perm (after s').symm (.refl _)
  exact (Relation.ReflTransGen.single first).trans ((moves rest).tail last)

theorem moves_setOqstream {p : Process} {i : ℕ} {s s' : OQStream} {q' : Queue}
    (row : p.oqs[i]? = some s)
    (moves : ∀ rest, Moves bounded solid ⟨p.queue, p.iqs.filterMap reader, (writer s).toList ++ rest⟩
      ⟨q', p.iqs.filterMap reader, (writer s').toList ++ rest⟩) :
    Moves bounded solid (config p) (config (p.setOqstream i s' q')) := by
  obtain ⟨rest, before, after⟩ := view_set writer row
  have first : Move bounded solid (config p) ⟨p.queue, _, (writer s).toList ++ rest⟩ :=
    .perm (.refl _) before
  have last : Move bounded solid ⟨q', p.iqs.filterMap reader, (writer s').toList ++ rest⟩
      (config (p.setOqstream i s' q')) := .perm (.refl _) (after s').symm
  exact (Relation.ReflTransGen.single first).trans ((moves rest).tail last)

structure Bounded (bounded : ℕ → Prop) (p : Process) : Prop where
  chunks : bounded p.queue.chunksHead.id
  sizes : ∀ s ∈ p.oqs, bounded s.header.size

theorem getElem?_set_row {α : Type} {table : List α} {i : ℕ} {row : α} (row' : α)
    (h : table[i]? = some row) : row' ∈ table.set i row' := by
  obtain ⟨hi, -⟩ := List.getElem?_eq_some_iff.mp h
  exact List.mem_set hi row'

/-- Every call is a sequence of moves. -/
theorem exec_moves (p : Process) (act : Act) (fits : Bounded bounded (p.exec act).1) :
    Moves bounded (fun _ => True) (config p) (config (p.exec act).1) := by
  cases act with
  | newIqstream => simpa [Process.exec, config, reader] using .refl
  | newOqstream => simpa [Process.exec, config, writer] using .refl
  | iopen i =>
    cases row : p.iqs[i]? with
    | none => simpa [Process.exec, Process.onIqstream, row] using .refl
    | some s =>
      simp only [Process.exec, Process.onIqstream, row]
      exact moves_setIqstream row fun rest => moves_iopen s _ rest _
  | iread i io =>
    cases row : p.iqs[i]? with
    | none => simpa [Process.exec, Process.onIqstream, row] using .refl
    | some s =>
      simp only [Process.exec, Process.onIqstream, row]
      exact moves_setIqstream row fun rest => moves_iread s io rest _
  | iclose i erase ok =>
    cases row : p.iqs[i]? with
    | none => simpa [Process.exec, Process.onIqstream, row] using .refl
    | some s =>
      simp only [Process.exec, Process.onIqstream, row]
      cases hc : s.close p.queue erase ok with
      | error e => exact .refl
      | ok pair => exact moves_setIqstream row fun rest => moves_iclose hc rest _
  | idestruct i =>
    cases row : p.iqs[i]? with
    | none => simpa [Process.exec, Process.onIqstream, row] using .refl
    | some s =>
      simp only [Process.exec, Process.onIqstream, row]
      refine moves_setIqstream row fun rest => ?_
      simpa [reader] using moves_idestruct s rest _
  | oopen i count sync =>
    cases row : p.oqs[i]? with
    | none => simpa [Process.exec, Process.onOqstream, row] using .refl
    | some s =>
      simp only [Process.exec, Process.onOqstream, row] at fits ⊢
      exact moves_setOqstream row fun rest => moves_oopen s _ count sync fits.chunks _ rest
  | owrite i chunk stray io =>
    cases row : p.oqs[i]? with
    | none => simpa [Process.exec, Process.onOqstream, row] using .refl
    | some s =>
      simp only [Process.exec, Process.onOqstream, row] at fits ⊢
      have size := fits.sizes _ (getElem?_set_row _ row)
      exact moves_setOqstream row fun rest => moves_owrite s chunk stray io size (fun _ => trivial) _ rest
  | ocancel i ok =>
    cases row : p.oqs[i]? with
    | none => simpa [Process.exec, Process.onOqstream, row] using .refl
    | some s =>
      simp only [Process.exec, Process.onOqstream, row]
      cases hc : s.cancel p.queue ok with
      | error e => exact .refl
      | ok pair => exact moves_setOqstream row fun rest => moves_ocancel hc _ rest
  | odestruct i ok =>
    cases row : p.oqs[i]? with
    | none => simpa [Process.exec, Process.onOqstream, row] using .refl
    | some s =>
      simp only [Process.exec, Process.onOqstream, row]
      refine moves_setOqstream row fun rest => ?_
      simpa [writer] using moves_odestruct s ok _ rest
  | destroy taken => exact .single (.destroy taken)

end Darner.StreamMoves
