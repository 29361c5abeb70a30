import Darner.ChunkedItems

/-! Journal calls that fail. A stream method that throws leaves the items of the queue
as they were and the stream on its item or its push, so that it can be tried again or
given up: a read tried again returns what it would have returned, a stream destroyed
gives its item back, and a push cancelled leaves none of its chunks behind. -/

namespace Darner.JournalFailures
open OrderedStore LabelledRuns StreamMoves QueuePartition QueueRecovery ChunkLayout
open CrashConsistency StoredItems ChunkedItems

structure SameState (q q' : Queue) : Prop where
  items : Queue.SameItems q q'
  bytesEvicted : q'.bytesEvicted = q.bytesEvicted

theorem SameState.refl (q : Queue) : SameState q q := ⟨.refl q, rfl⟩

/-- A write throws before it stores, or it stores the last chunk of a multi-chunk item
and then cannot push the header. -/
theorem write_threw {s s' : OQStream} {q q' : Queue} {chunk : Bytes} {stray : UInt8} {io : Io}
    {e : Error} (h : s.write q chunk stray io = (.error e, s', q')) :
    (s' = s ∧ q' = q) ∨
    (s.queue.isSome ∧ s.header.end_ > 1 ∧ s' = s.advance chunk.length ∧
      q.writeChunk chunk s.chunkPos (io 0) = .ok q') := by
  rcases s.write_cases q chunk stray io with
    ⟨-, eof⟩ | ⟨isOpen, -, ⟨e', -, failed⟩ | ⟨s₁, q₁, stored, rest⟩⟩
  · rw [eof] at h
    cases h
    exact .inl ⟨rfl, rfl⟩
  · rw [failed] at h
    cases h
    exact .inl ⟨rfl, rfl⟩
  · rw [rest] at h
    rcases (s₁.advance chunk.length).finish_cases q₁ (io 1) with
      ⟨-, same⟩ | ⟨-, -, same⟩ | ⟨-, multi, ⟨e', same⟩ | ⟨id, q₂, -, same⟩⟩
    · rw [same] at h
      cases h
    · rw [same] at h
      cases h
    · rw [same] at h
      cases h
      rcases OQStream.store_ok stored with ⟨single, id, -, rfl⟩ | ⟨multi', put, rfl⟩
      · exact absurd multi (by simpa [OQStream.advance] using single)
      · exact .inr ⟨isOpen, multi', rfl, put⟩
    · rw [same] at h
      cases h

theorem sameState_writeChunk {q q' : Queue} {chunk : Bytes} {n : ℕ} {ok : Bool}
    (h : q.writeChunk chunk n ok = .ok q') : SameState q q' := by
  refine ⟨Queue.sameItems_writeChunk h, ?_⟩
  rw [Queue.put_ok h]

theorem setIqstream_same {p : Process} {i : ℕ} {s : IQStream} (row : p.iqs[i]? = some s) :
    p.setIqstream i s p.queue = p := by
  obtain ⟨bound, rfl⟩ := List.getElem?_eq_some_iff.mp row
  simp [Process.setIqstream]

theorem setOqstream_same {p : Process} {i : ℕ} {s : OQStream} (row : p.oqs[i]? = some s) :
    p.setOqstream i s p.queue = p := by
  obtain ⟨bound, rfl⟩ := List.getElem?_eq_some_iff.mp row
  simp [Process.setOqstream]

theorem exec_threw {p p' : Process} {act : Act} {e : Error} (run : p.exec act = (p', .threw e)) :
    p' = p ∨
    (∃ i io s, act = .iread i io ∧ p.iqs[i]? = some s ∧ (s.read p.queue io).1 = .error e ∧
      p' = p.setIqstream i (s.read p.queue io).2 p.queue) ∨
    ∃ i chunk stray io s q', act = .owrite i chunk stray io ∧ p.oqs[i]? = some s ∧
      s.queue.isSome ∧ s.header.end_ > 1 ∧ p.queue.writeChunk chunk s.chunkPos (io 0) = .ok q' ∧
      p' = p.setOqstream i (s.advance chunk.length) q' := by
  cases act with
  | newIqstream | newOqstream | destroy taken => cases run
  | iopen i =>
    cases row : p.iqs[i]? with
    | none => simp [Process.exec, Process.onIqstream, row] at run
    | some s =>
      simp only [Process.exec, Process.onIqstream, row] at run
      rcases s.open_cases Process.address p.queue with ⟨-, same⟩ | ⟨-, -, same⟩ | ⟨-, n, q', -, same⟩ <;>
        rw [same] at run <;> cases run
      exact .inl (setIqstream_same row)
  | iread i io =>
    cases row : p.iqs[i]? with
    | none => simp [Process.exec, Process.onIqstream, row] at run
    | some s =>
      rw [exec_iread io row] at run
      obtain ⟨next, answer⟩ := Prod.mk.inj run
      refine .inr (.inl ⟨i, io, s, rfl, row, ?_, next.symm⟩)
      cases result : (s.read p.queue io).1 with
      | ok bytes =>
        rw [result] at answer
        cases answer
      | error e' =>
        rw [result] at answer
        cases answer
        rfl
  | iclose i erase ok =>
    cases row : p.iqs[i]? with
    | none => simp [Process.exec, Process.onIqstream, row] at run
    | some s =>
      simp only [Process.exec, Process.onIqstream, row] at run
      cases close : s.close p.queue erase ok <;> rw [close] at run <;> cases run
      exact .inl rfl
  | idestruct i =>
    cases row : p.iqs[i]? <;> simp [Process.exec, Process.onIqstream, row] at run
  | oopen i count sync =>
    cases row : p.oqs[i]? with
    | none => simp [Process.exec, Process.onOqstream, row] at run
    | some s =>
      by_cases isOpen : s.queue.isSome
      · simp only [Process.exec, Process.onOqstream, row, OQStream.open_, isOpen, if_true] at run
        cases run
        exact .inl (setOqstream_same row)
      · simp [Process.exec, Process.onOqstream, row, OQStream.open_, isOpen,
          Outcome.ofWrite] at run
  | owrite i chunk stray io =>
    cases row : p.oqs[i]? with
    | none => simp [Process.exec, Process.onOqstream, row] at run
    | some s =>
      rw [exec_owrite row] at run
      rcases write : s.write p.queue chunk stray io with ⟨result, s', q'⟩
      rw [write] at run
      cases result <;> cases run
      rcases write_threw write with ⟨rfl, rfl⟩ | ⟨isOpen, multi, rfl, put⟩
      · exact .inl (setOqstream_same row)
      · exact .inr (.inr ⟨i, chunk, stray, io, s, q', rfl, row, isOpen, multi, put, rfl⟩)
  | ocancel i ok =>
    cases row : p.oqs[i]? with
    | none => simp [Process.exec, Process.onOqstream, row] at run
    | some s =>
      simp only [Process.exec, Process.onOqstream, row] at run
      cases cancel : s.cancel p.queue ok <;> rw [cancel] at run <;> cases run
      exact .inl rfl
  | odestruct i ok =>
    cases row : p.oqs[i]? <;> simp [Process.exec, Process.onOqstream, row] at run

theorem sameState_threw {p p' : Process} {act : Act} {e : Error}
    (run : p.exec act = (p', .threw e)) : SameState p.queue p'.queue := by
  rcases exec_threw run with rfl | ⟨i, io, s, -, -, -, rfl⟩ |
    ⟨i, chunk, stray, io, s, q', -, -, -, -, put, rfl⟩
  · exact .refl _
  · exact .refl _
  · exact sameState_writeChunk put

/-! The reader: a read that is tried again. -/

def entryOf (s : IQStream) (value : Bytes) : Except Error Bytes × IQStream :=
  match Stored.ofValue value with
  | .item bytes => (.ok bytes, { s with header := { size := bytes.length } })
  | .header header =>
    if header.end_ > 1 then (.ok value, { s with header := header, chunkPos := header.beg })
    else (.ok value, { s with header := { header with size := value.length } })
  | .bad => (.error .ioError, { s with header := {} })

theorem readEntry_eq (s : IQStream) (q : Queue) (ok : Bool) :
    s.readEntry q ok =
      match q.get ⟨.queue, s.id⟩ ok with
      | .error e => (.error e, s)
      | .ok value => entryOf s value := by
  unfold IQStream.readEntry Queue.popRead entryOf
  cases q.get ⟨.queue, s.id⟩ ok with
  | error e => rfl
  | ok value =>
    dsimp only
    cases Stored.ofValue value with
    | item bytes => rfl
    | header header => rfl
    | bad => rfl

theorem entryOf_header {value : Bytes} {header : Header} (s : IQStream)
    (stored : Stored.ofValue value = .header header) (multi : header.end_ > 1) :
    entryOf s value = (.ok value, { s with header := header, chunkPos := header.beg }) := by
  simp [entryOf, stored, multi]

theorem entryOf_cases (s : IQStream) (value : Bytes) :
    (∃ result header, header.end_ ≤ 1 ∧ entryOf s value = (.ok result, { s with header := header })) ∨
    (∃ header, Stored.ofValue value = .header header ∧ header.end_ > 1) ∨
    ∀ t, entryOf t value = (.error .ioError, { t with header := {} }) := by
  cases stored : Stored.ofValue value with
  | item bytes => exact .inl ⟨bytes, { size := bytes.length }, le_refl 1, by simp [entryOf, stored]⟩
  | bad => exact .inr (.inr fun t => by simp [entryOf, stored])
  | header header =>
    by_cases multi : header.end_ > 1
    · exact .inr (.inl ⟨header, rfl, multi⟩)
    · exact .inl ⟨value, { header with size := value.length }, by simpa using multi,
        by simp [entryOf, stored, multi]⟩

def Placed (s : IQStream) : Prop := s.header.end_ > 1 → s.header.beg ≤ s.chunkPos

theorem placed_entryOf (s : IQStream) (value : Bytes) : Placed (entryOf s value).2 := by
  rcases entryOf_cases s value with ⟨result, header, single, same⟩ | ⟨header, stored, multi⟩ | bad
  · rw [same]
    exact fun multi => absurd multi (by simpa using single)
  · rw [entryOf_header s stored multi]
    exact fun _ => le_refl _
  · rw [bad s]
    exact fun multi => absurd multi (by simp)

theorem placed_readChunk {s : IQStream} (q : Queue) (result : Bytes) (ok : Bool)
    (placed : Placed s) : Placed (s.readChunk q result ok).2 := by
  unfold IQStream.readChunk
  split
  · exact placed
  · intro multi
    have := placed multi
    dsimp only at this ⊢
    omega

def chunkAfter (q : Queue) (ok : Bool) : Except Error Bytes × IQStream →
    Except Error Bytes × IQStream
  | (.error e, s) => (.error e, s)
  | (.ok result, s) => s.readChunk q result ok

theorem read_eq (s : IQStream) (q : Queue) (io : Io) :
    s.read q io =
      if s.queue.isNone ∨ s.chunkPos ≥ s.header.end_ then (.error .eof, s)
      else if s.chunkPos = 0 then
        match q.get ⟨.queue, s.id⟩ (io 0) with
        | .error e => (.error e, s)
        | .ok value => chunkAfter q (io 1) (entryOf s value)
      else s.readChunk q [] (io 1) := by
  unfold IQStream.read
  rw [readEntry_eq]
  cases q.get ⟨.queue, s.id⟩ (io 0) with
  | error e => rfl
  | ok value =>
    dsimp only
    rcases entryOf s value with ⟨_ | result, s'⟩ <;> rfl

theorem placed_read {s : IQStream} (q : Queue) (io : Io) (placed : Placed s) :
    Placed (s.read q io).2 := by
  rw [read_eq]
  split
  · exact placed
  · split
    · split
      · exact placed
      case h_2 value found =>
        have entry := placed_entryOf s value
        revert entry
        rcases entryOf s value with ⟨_ | result, s'⟩
        · exact id
        · exact placed_readChunk q result (io 1)
    · exact placed_readChunk q [] (io 1) placed

theorem get_ok {q : Queue} {key : Key} {ok : Bool} {value : Bytes} (h : q.get key ok = .ok value) :
    q.contents.lookup key = some value ∧ q.get key true = .ok value := by
  unfold Queue.get at h ⊢
  split at h
  case h_1 found there =>
    split at h
    · cases h
      rw [there]
      exact ⟨rfl, rfl⟩
    · cases h
  case h_2 => cases h

theorem readChunk_multi {s : IQStream} (multi : s.header.end_ > 1) (q : Queue)
    (result result' : Bytes) (ok : Bool) : s.readChunk q result ok = s.readChunk q result' ok := by
  unfold IQStream.readChunk
  rw [if_pos multi, if_pos multi]

theorem readChunk_failed {s : IQStream} {q : Queue} {result : Bytes} {ok : Bool} {e : Error}
    (h : (s.readChunk q result ok).1 = .error e) :
    s.header.end_ > 1 ∧ (s.readChunk q result ok).2 = s := by
  unfold IQStream.readChunk at h ⊢
  by_cases multi : s.header.end_ > 1
  · rw [if_pos multi] at h ⊢
    refine ⟨multi, ?_⟩
    cases read : q.readChunk s.chunkPos ok with
    | error e' => rfl
    | ok bytes =>
      rw [read] at h
      cases h
  · rw [if_neg multi] at h
    cases h

theorem read_again {s : IQStream} {q : Queue} {io : Io} {e : Error}
    (several : ∀ header, HeaderAt q.contents s.id header → header.beg + 2 ≤ header.end_)
    (failed : (s.read q io).1 = .error e) :
    ((s.read q io).2.read q fun _ => true) = s.read q fun _ => true := by
  rw [read_eq s q io] at failed ⊢
  by_cases stuck : s.queue.isNone ∨ s.chunkPos ≥ s.header.end_
  · rw [if_pos stuck]
  rw [if_neg stuck] at failed ⊢
  by_cases first : s.chunkPos = 0
  swap
  · rw [if_neg first] at failed ⊢
    rw [(readChunk_failed failed).2]
  rw [if_pos first] at failed ⊢
  cases found : q.get ⟨.queue, s.id⟩ (io 0) with
  | error e' => rfl
  | ok value =>
    obtain ⟨there, good⟩ := get_ok found
    have isOpen : ¬s.queue.isNone := fun closed => stuck (.inl closed)
    rw [found] at failed
    dsimp only at failed ⊢
    rcases entryOf_cases s value with ⟨result, header, single, same⟩ | ⟨header, stored, multi⟩ | bad
    · -- a plain item needs no more of the journal
      rw [same] at failed
      exact absurd (readChunk_failed failed).1 (by simpa using single)
    · have range := several header ⟨value, there, stored⟩
      rw [entryOf_header s stored multi] at failed ⊢
      simp only [chunkAfter] at failed ⊢
      rw [(readChunk_failed failed).2, read_eq s, if_neg stuck, if_pos first, good]
      simp only [entryOf_header s stored multi, chunkAfter]
      rw [read_eq, if_neg (by simp [isOpen]; omega)]
      by_cases again : header.beg = 0
      · rw [if_pos again]
        simp only [good, entryOf_header _ stored multi, chunkAfter]
      · rw [if_neg again]
        exact readChunk_multi multi q _ _ true
    · rw [bad s]
      simp only [chunkAfter]
      rw [read_eq, read_eq s, if_neg stuck, if_neg (by simp [isOpen, first]), if_pos first,
        if_pos first, good]
      simp only [bad, chunkAfter]

theorem read_congr {s : IQStream} {q q' : Queue}
    (entry : q'.contents.lookup ⟨.queue, s.id⟩ = q.contents.lookup ⟨.queue, s.id⟩)
    (chunks : ∀ header, HeaderAt q.contents s.id header → ∀ n ∈ header.range,
      q'.contents.lookup ⟨.chunk, n⟩ = q.contents.lookup ⟨.chunk, n⟩)
    (several : ∀ header, HeaderAt q.contents s.id header → header.beg + 2 ≤ header.end_)
    (known : s.header.end_ > 1 → HeaderAt q.contents s.id s.header) (placed : Placed s) (io : Io) :
    s.read q' io = s.read q io := by
  have chunk : ∀ (t : IQStream) result,
      (t.header.end_ > 1 → HeaderAt q.contents s.id t.header ∧ t.chunkPos ∈ t.header.range) →
      t.readChunk q' result (io 1) = t.readChunk q result (io 1) := by
    intro t result inside
    unfold IQStream.readChunk Queue.readChunk Queue.get
    by_cases multi : t.header.end_ > 1
    · obtain ⟨stored, mem⟩ := inside multi
      rw [chunks t.header stored t.chunkPos mem]
    · rw [if_neg multi, if_neg multi]
  have get : ∀ ok, q'.get ⟨.queue, s.id⟩ ok = q.get ⟨.queue, s.id⟩ ok := by
    intro ok
    unfold Queue.get
    rw [entry]
  rw [read_eq, read_eq, get]
  split
  · rfl
  case isFalse goes =>
    split
    · cases found : q.get ⟨.queue, s.id⟩ (io 0) with
      | error e => rfl
      | ok value =>
        obtain ⟨there, -⟩ := get_ok found
        dsimp only
        rcases entryOf_cases s value with ⟨result, header, single, same⟩ | ⟨header, stored, multi⟩ | bad
        · rw [same]
          exact chunk _ result fun multi => absurd multi (by simpa using single)
        · rw [entryOf_header s stored multi]
          have at' : HeaderAt q.contents s.id header := ⟨value, there, stored⟩
          have range := several header at'
          exact chunk _ value fun _ => ⟨at', Finset.mem_Ico.mpr ⟨le_refl _, by dsimp only; omega⟩⟩
        · rw [bad s]
          rfl
    · refine chunk s [] fun multi => ⟨known multi, ?_⟩
      rw [not_or] at goes
      exact Finset.mem_Ico.mpr ⟨placed multi, by omega⟩

theorem placed_exec {p : Process} (act : Act) (placed : ∀ s ∈ p.iqs, Placed s) :
    ∀ s ∈ (p.exec act).1.iqs, Placed s := by
  have set : ∀ {i s' q}, Placed s' → ∀ s ∈ (p.setIqstream i s' q).iqs, Placed s := by
    intro i s' q fine s mem
    rcases List.mem_or_eq_of_mem_set mem with old | rfl
    · exact placed s old
    · exact fine
  have fresh : Placed {} := fun multi => absurd multi (by simp)
  cases act with
  | newIqstream =>
    intro s mem
    rcases List.mem_append.mp mem with old | new
    · exact placed s old
    · rw [List.mem_singleton.mp new]
      exact fresh
  | newOqstream | destroy taken => exact placed
  | iopen i =>
    cases row : p.iqs[i]? with
    | none => simpa [Process.exec, Process.onIqstream, row] using placed
    | some t =>
      simp only [Process.exec, Process.onIqstream, row]
      rcases t.open_cases Process.address p.queue with ⟨-, same⟩ | ⟨-, -, same⟩ | ⟨-, n, q', -, same⟩ <;>
        rw [same]
      · exact set (placed t (List.mem_of_getElem? row))
      · exact set (placed t (List.mem_of_getElem? row))
      · exact set fun multi => absurd multi (by simp)
  | iread i io =>
    cases row : p.iqs[i]? with
    | none => simpa [Process.exec, Process.onIqstream, row] using placed
    | some t =>
      rw [exec_iread io row]
      exact set (placed_read p.queue io (placed t (List.mem_of_getElem? row)))
  | iclose i erase ok =>
    cases row : p.iqs[i]? with
    | none => simpa [Process.exec, Process.onIqstream, row] using placed
    | some t =>
      simp only [Process.exec, Process.onIqstream, row]
      cases close : t.close p.queue erase ok with
      | error e => exact placed
      | ok pair =>
        have here := placed t (List.mem_of_getElem? row)
        rcases IQStream.close_ok close with ⟨-, same, -⟩ | ⟨-, same, -⟩
        · exact set (by rw [same]; exact here)
        · exact set (by rw [same]; exact here)
  | idestruct i =>
    cases row : p.iqs[i]? with
    | none => simpa [Process.exec, Process.onIqstream, row] using placed
    | some t =>
      simp only [Process.exec, Process.onIqstream, row]
      exact set fresh
  | oopen i count sync =>
    cases row : p.oqs[i]? <;>
      simpa [Process.exec, Process.onOqstream, row, Process.setOqstream] using placed
  | owrite i chunk stray io =>
    cases row : p.oqs[i]? <;>
      simpa [Process.exec, Process.onOqstream, row, Process.setOqstream] using placed
  | ocancel i ok =>
    cases row : p.oqs[i]? with
    | none => simpa [Process.exec, Process.onOqstream, row] using placed
    | some t =>
      simp only [Process.exec, Process.onOqstream, row]
      cases t.cancel p.queue ok <;> exact placed
  | odestruct i ok =>
    cases row : p.oqs[i]? <;>
      simpa [Process.exec, Process.onOqstream, row, Process.setOqstream] using placed

theorem reachable_placed {path : Bytes} {p : Process}
    (h : Reachable Process.Step (Process.created path) p) : ∀ s ∈ p.iqs, Placed s := by
  refine h.invariant (P := fun p => ∀ s ∈ p.iqs, Placed s) (by simp [Process.created]) ?_
  intro p e p' placed step
  cases step with
  | @act _ act outcome run fits =>
    have next : p' = (p.exec act).1 := by rw [run]
    rw [next]
    exact placed_exec act placed
  | crash reopen fresh =>
    obtain ⟨q, -, rfl⟩ := Option.map_eq_some_iff.mp fresh
    simp

theorem held_open {p : Process} {j : ℕ} {s : IQStream} (row : p.iqs[j]? = some s)
    (isOpen : s.queue.isSome) : s.id ∈ heldIds (config p) :=
  List.mem_map_of_mem (List.mem_filterMap.mpr ⟨s, List.mem_of_getElem? row, reader_open isOpen⟩)

theorem read_exec_other {p : Process} {act : Act} {j : ℕ} {s : IQStream}
    (cons : Consistent (config p)) (placed : Placed s) (row : p.iqs[j]? = some s)
    (isOpen : s.queue.isSome) (other : onIq act ≠ some j) (fits : (p.exec act).1.Fits) (io : Io) :
    s.read (p.exec act).1.queue io = s.read p.queue io := by
  have held := held_open row isOpen
  have below : s.id < p.queue.queueHead.id :=
    Nat.lt_of_lt_of_le (cons.own.held_lt _ held) cons.own.tail_le_head
  have start : Untouched s.id p.queue.contents (config p) :=
    ⟨⟨cons.own, below, fun _ => rfl⟩, fun _ _ _ _ _ => rfl⟩
  have moves : Moves (· < wordSize) (fun _ => True) (config p) (config (p.exec act).1) :=
    exec_moves p act ⟨fits.chunks, fits.sizes⟩
  obtain ⟨-, untouched⟩ := moves.invariant move_untouched ⟨cons, start⟩
  have owned : (p.exec act).1.queue.Owned (heldIds (config (p.exec act).1)) s.id :=
    .inr (held_open (iqs_exec other row) isOpen)
  have mem : s ∈ (config p).readers :=
    List.mem_filterMap.mpr ⟨s, List.mem_of_getElem? row, reader_open isOpen⟩
  exact read_congr (untouched.records.entry owned) (untouched.chunks owned)
    (fun _ stored => cons.layout.intact.several stored) (cons.layout.known s mem) placed io

/-- Calls on other objects, and calls on the iqstream at `j` that throw. -/
def WaitsIq (j : ℕ) : Process.Event → Prop
  | .act act outcome => onIq act ≠ some j ∨ ∃ e, outcome = .threw e
  | .crash _ => False

def WaitsOq (i : ℕ) : Process.Event → Prop
  | .act act outcome => onOq act ≠ some i ∨ ∃ e, outcome = .threw e
  | .crash _ => False

/-- The iqstream at `j` holds the id, and a good read of it would have this answer. -/
structure Retrying (j id : ℕ) (answer : Except Error Bytes × IQStream) (p : Process) : Prop where
  cons : Consistent (config p)
  placed : ∀ s ∈ p.iqs, Placed s
  stream : ∃ s, p.iqs[j]? = some s ∧ s.queue.isSome ∧ s.id = id ∧
    (s.read p.queue fun _ => true) = answer

theorem step_retrying {j id : ℕ} {answer : Except Error Bytes × IQStream} (p : Process)
    (e : Process.Event) (p' : Process) (waits : WaitsIq j e) (h : Retrying j id answer p)
    (step : Process.Step p e p') : Retrying j id answer p' := by
  have cons' := step_consistent p e p' h.cons step
  cases step with
  | crash reopen fresh => cases waits
  | @act _ act outcome run fits =>
    have next : p' = (p.exec act).1 := by rw [run]
    refine ⟨cons', next ▸ placed_exec act h.placed, ?_⟩
    obtain ⟨s, row, isOpen, same, read⟩ := h.stream
    have placed := h.placed s (List.mem_of_getElem? row)
    by_cases other : onIq act ≠ some j
    · rw [next] at fits ⊢
      refine ⟨s, iqs_exec other row, isOpen, same, ?_⟩
      rw [read_exec_other h.cons placed row isOpen other fits]
      exact read
    · rcases waits with away | ⟨error, rfl⟩
      · exact absurd away other
      rw [not_not] at other
      rcases exec_threw run with rfl | ⟨i, io, t, rfl, row', failed, rfl⟩ |
        ⟨i, chunk, stray, io, t, q', rfl, -⟩
      · exact ⟨s, row, isOpen, same, read⟩
      · obtain rfl := Option.some.inj other
        obtain rfl : s = t := Option.some.inj (row.symm.trans row')
        refine ⟨_, row_setIqstream row, ?_, ?_, ?_⟩
        · rw [IQStream.queue_read]
          exact isOpen
        · rw [IQStream.id_read]
          exact same
        · rw [← read]
          exact read_again (fun _ stored => h.cons.layout.intact.several stored) failed
      · cases other

/-! The writer. -/

def Unwritten (s : OQStream) : Prop :=
  s.queue.isSome → s.header.end_ ≤ 1 → s.header.end_ = 1 ∧ s.chunkPos = 0

theorem unwritten_open {s : OQStream} (q : Queue) (address count : ℕ) (sync : Bool)
    (h : Unwritten s) : Unwritten (s.open_ address q count sync).2.1 := by
  unfold OQStream.open_
  by_cases isOpen : s.queue.isSome
  · rw [if_pos isOpen]
    exact h
  · rw [if_neg isOpen]
    by_cases several : count > 1
    · intro _ single
      simp [several, Queue.reserveChunks] at single
      omega
    · intro _ _
      simp [several]

theorem write_open {s s' : OQStream} {q q' : Queue} {chunk : Bytes} {stray : UInt8} {io : Io}
    {result : Except Error Unit} (unwritten : Unwritten s)
    (h : s.write q chunk stray io = (result, s', q')) (isOpen : s'.queue.isSome) :
    (s' = s ∧ q' = q) ∨
    (s.header.end_ > 1 ∧ s' = s.advance chunk.length ∧
      q.writeChunk chunk s.chunkPos (io 0) = .ok q') := by
  rcases s.write_cases q chunk stray io with
    ⟨-, eof⟩ | ⟨wasOpen, -, ⟨e', -, failed⟩ | ⟨s₁, q₁, stored, rest⟩⟩
  · rw [eof] at h
    cases h
    exact .inl ⟨rfl, rfl⟩
  · rw [failed] at h
    cases h
    exact .inl ⟨rfl, rfl⟩
  · rw [rest] at h
    rcases OQStream.store_ok stored with ⟨single, id, -, rfl⟩ | ⟨multi, put, rfl⟩
    · -- the only chunk of its item: the stream is at its end
      obtain ⟨stop, start⟩ := unwritten wasOpen single
      rcases (({ s with id := id } : OQStream).advance chunk.length).finish_cases q₁ (io 1) with
        ⟨more, -⟩ | ⟨-, -, same⟩ | ⟨-, multi, -⟩
      · simp [OQStream.advance, stop, start] at more
      · rw [same] at h
        cases h
        cases isOpen
      · simp [OQStream.advance, stop] at multi
    · rcases (s₁.advance chunk.length).finish_cases q₁ (io 1) with
        ⟨-, same⟩ | ⟨-, -, same⟩ | ⟨-, -, ⟨e', same⟩ | ⟨id, q₂, -, same⟩⟩
      · rw [same] at h
        cases h
        exact .inr ⟨multi, rfl, put⟩
      · rw [same] at h
        cases h
        cases isOpen
      · rw [same] at h
        cases h
        exact .inr ⟨multi, rfl, put⟩
      · rw [same] at h
        cases h
        cases isOpen

theorem exec_oopen {p : Process} {i : ℕ} {s : OQStream} (count : ℕ) (sync : Bool)
    (row : p.oqs[i]? = some s) :
    p.exec (.oopen i count sync) =
      (p.setOqstream i (s.open_ Process.address p.queue count sync).2.1
        (s.open_ Process.address p.queue count sync).2.2,
        .ofWrite (s.open_ Process.address p.queue count sync).1) := by
  simp only [Process.exec, Process.onOqstream, row]

theorem row_set {p : Process} {i j : ℕ} {s s' : OQStream} {q : Queue}
    (row : (p.setOqstream j s' q).oqs[i]? = some s) : p.oqs[i]? = some s ∨ j = i ∧ s = s' := by
  simp only [Process.setOqstream] at row
  by_cases same : j = i
  · subst same
    obtain ⟨bound, get⟩ := List.getElem?_eq_some_iff.mp row
    rw [List.getElem_set_self] at get
    exact .inr ⟨rfl, get.symm⟩
  · rw [List.getElem?_set_ne same] at row
    exact .inl row

theorem oqs_exec_cases {p : Process} {act : Act} {i : ℕ} {s' : OQStream}
    (row' : (p.exec act).1.oqs[i]? = some s') :
    p.oqs[i]? = some s' ∨ s'.queue = none ∨
    (∃ s count sync, act = .oopen i count sync ∧ p.oqs[i]? = some s ∧
      s' = (s.open_ Process.address p.queue count sync).2.1) ∨
    ∃ s chunk stray io, act = .owrite i chunk stray io ∧ p.oqs[i]? = some s ∧
      s' = (s.write p.queue chunk stray io).2.1 := by
  cases act with
  | newOqstream =>
    simp only [Process.exec] at row'
    rcases List.mem_append.mp (List.mem_of_getElem? row') with old | new
    · by_cases bound : i < p.oqs.length
      · rw [List.getElem?_append_left bound] at row'
        exact .inl row'
      · rw [List.getElem?_append_right (by omega)] at row'
        rw [List.mem_singleton.mp (List.mem_of_getElem? row')]
        exact .inr (.inl rfl)
    · rw [List.mem_singleton.mp new]
      exact .inr (.inl rfl)
  | newIqstream | destroy taken => exact .inl row'
  | iopen j | iread j io | iclose j erase ok | idestruct j =>
    left
    cases object : p.iqs[j]? with
    | none => simpa [Process.exec, Process.onIqstream, object] using row'
    | some t =>
      simp only [Process.exec, Process.onIqstream, object] at row'
      first
        | exact row'
        | split at row' <;> exact row'
  | oopen j count sync =>
    cases object : p.oqs[j]? with
    | none =>
      left
      simpa [Process.exec, Process.onOqstream, object] using row'
    | some t =>
      rw [exec_oopen count sync object] at row'
      rcases row_set row' with old | ⟨rfl, rfl⟩
      · exact .inl old
      · exact .inr (.inr (.inl ⟨t, count, sync, rfl, object, rfl⟩))
  | owrite j chunk stray io =>
    cases object : p.oqs[j]? with
    | none =>
      left
      simpa [Process.exec, Process.onOqstream, object] using row'
    | some t =>
      rw [exec_owrite object] at row'
      rcases row_set row' with old | ⟨rfl, rfl⟩
      · exact .inl old
      · exact .inr (.inr (.inr ⟨t, chunk, stray, io, rfl, object, rfl⟩))
  | ocancel j ok =>
    cases object : p.oqs[j]? with
    | none =>
      left
      simpa [Process.exec, Process.onOqstream, object] using row'
    | some t =>
      simp only [Process.exec, Process.onOqstream, object] at row'
      cases cancel : t.cancel p.queue ok with
      | error e =>
        rw [cancel] at row'
        exact .inl row'
      | ok pair =>
        rw [cancel] at row'
        rcases row_set row' with old | ⟨-, rfl⟩
        · exact .inl old
        · right
          left
          rw [(OQStream.cancel_ok cancel).2.1]
  | odestruct j ok =>
    cases object : p.oqs[j]? with
    | none =>
      left
      simpa [Process.exec, Process.onOqstream, object] using row'
    | some t =>
      simp only [Process.exec, Process.onOqstream, object] at row'
      rcases row_set row' with old | ⟨-, rfl⟩
      · exact .inl old
      · exact .inr (.inl rfl)

theorem unwritten_exec {p : Process} (act : Act) (h : ∀ s ∈ p.oqs, Unwritten s) :
    ∀ s ∈ (p.exec act).1.oqs, Unwritten s := by
  intro s' mem
  obtain ⟨i, row'⟩ := List.mem_iff_getElem?.mp mem
  rcases oqs_exec_cases row' with old | closed | ⟨s, count, sync, -, row, rfl⟩ |
    ⟨s, chunk, stray, io, -, row, rfl⟩
  · exact h s' (List.mem_of_getElem? old)
  · intro isOpen
    rw [closed] at isOpen
    cases isOpen
  · exact unwritten_open p.queue _ count sync (h s (List.mem_of_getElem? row))
  · have before := h s (List.mem_of_getElem? row)
    rcases write : s.write p.queue chunk stray io with ⟨result, s', q'⟩
    intro isOpen
    rcases write_open before write isOpen with ⟨rfl, -⟩ | ⟨multi, rfl, -⟩
    · exact before isOpen
    · exact fun single => absurd multi (by simpa [OQStream.advance] using single)

theorem reachable_unwritten {path : Bytes} {p : Process}
    (h : Reachable Process.Step (Process.created path) p) : ∀ s ∈ p.oqs, Unwritten s := by
  refine h.invariant (P := fun p => ∀ s ∈ p.oqs, Unwritten s) (by simp [Process.created]) ?_
  intro p e p' unwritten step
  cases step with
  | @act _ act outcome run fits =>
    have next : p' = (p.exec act).1 := by rw [run]
    rw [next]
    exact unwritten_exec act unwritten
  | crash reopen fresh =>
    obtain ⟨q, -, rfl⟩ := Option.map_eq_some_iff.mp fresh
    simp

def opens (i : ℕ) : Process.Event → Bool
  | .act (.oopen j _ _) .done => j = i
  | _ => false

def ClosedAt (i : ℕ) (p : Process) : Prop := ∀ s, p.oqs[i]? = some s → s.queue = none

theorem step_closedAt {i : ℕ} (p : Process) (e : Process.Event) (p' : Process)
    (keeps : opens i e = false) (h : ClosedAt i p) (step : Process.Step p e p') :
    ClosedAt i p' := by
  intro s' row'
  cases step with
  | crash reopen fresh =>
    obtain ⟨q, -, rfl⟩ := Option.map_eq_some_iff.mp fresh
    simp at row'
  | @act _ act outcome run fits =>
    have next : p' = (p.exec act).1 := by rw [run]
    have answer : outcome = (p.exec act).2 := by rw [run]
    rw [next] at row'
    rcases oqs_exec_cases row' with old | closed | ⟨s, count, sync, rfl, row, -⟩ |
      ⟨s, chunk, stray, io, -, row, rfl⟩
    · exact h s' old
    · exact closed
    · have closed := h s row
      have done : outcome = .done := by
        rw [answer, exec_oopen count sync row]
        simp [OQStream.open_, closed, Outcome.ofWrite]
      rw [done] at keeps
      simp [opens] at keeps
    · have closed := h s row
      have eof : s.write p.queue chunk stray io = (.error .eof, s, p.queue) := by
        rw [OQStream.write, if_pos (.inl (by simp [closed]))]
      rw [eof]
      exact closed

theorem sameItems_open {p p' : Process} {act : Act} {outcome : Outcome} {i : ℕ} {s' : OQStream}
    (unwritten : ∀ s ∈ p.oqs, Unwritten s) (run : p.exec act = (p', outcome))
    (on : onOq act = some i) (row' : p'.oqs[i]? = some s') (isOpen : s'.queue.isSome) :
    Queue.SameItems p.queue p'.queue := by
  cases act with
  | newIqstream | newOqstream | iopen j | iread j io | iclose j erase ok | idestruct j
  | destroy taken => cases on
  | oopen j count sync =>
    cases object : p.oqs[j]? with
    | none =>
      simp only [Process.exec, Process.onOqstream, object] at run
      cases run
      exact .refl _
    | some s =>
      rw [exec_oopen count sync object] at run
      cases run
      simp only [Process.setOqstream, OQStream.open_]
      split
      · exact .refl _
      · split
        · exact Queue.sameItems_reserveChunks _ _
        · exact .refl _
  | owrite j chunk stray io =>
    obtain rfl := Option.some.inj on
    cases object : p.oqs[j]? with
    | none =>
      simp only [Process.exec, Process.onOqstream, object] at run
      cases run
      exact .refl _
    | some s =>
      rcases write : s.write p.queue chunk stray io with ⟨result, t, q'⟩
      rw [exec_owrite object, write] at run
      cases run
      rw [row_setOqstream object] at row'
      obtain rfl := Option.some.inj row'
      rcases write_open (unwritten s (List.mem_of_getElem? object)) write isOpen with
        ⟨-, rfl⟩ | ⟨-, -, put⟩
      · exact .refl _
      · exact Queue.sameItems_writeChunk put
  | ocancel j ok =>
    obtain rfl := Option.some.inj on
    cases object : p.oqs[j]? with
    | none =>
      simp only [Process.exec, Process.onOqstream, object] at run
      cases run
      exact .refl _
    | some s =>
      simp only [Process.exec, Process.onOqstream, object] at run
      cases cancel : s.cancel p.queue ok with
      | error e =>
        rw [cancel] at run
        cases run
        exact .refl _
      | ok pair =>
        rw [cancel] at run
        cases run
        rw [row_setOqstream object] at row'
        rw [← Option.some.inj row', (OQStream.cancel_ok cancel).2.1] at isOpen
        cases isOpen
  | odestruct j ok =>
    obtain rfl := Option.some.inj on
    cases object : p.oqs[j]? with
    | none =>
      simp only [Process.exec, Process.onOqstream, object] at run
      cases run
      exact .refl _
    | some s =>
      simp only [Process.exec, Process.onOqstream, object] at run
      cases run
      rw [row_setOqstream object] at row'
      rw [← Option.some.inj row'] at isOpen
      cases isOpen

structure OpenPush (i beg end_ : ℕ) (p : Process) : Prop where
  cons : Consistent (config p)
  stream : ∃ s, p.oqs[i]? = some s ∧ s.queue.isSome ∧ s.header.beg = beg ∧ s.header.end_ = end_

theorem step_pushing {i beg end_ : ℕ} (p : Process) (e : Process.Event) (p' : Process)
    (waits : WaitsOq i e) (h : OpenPush i beg end_ p) (step : Process.Step p e p') :
    OpenPush i beg end_ p' := by
  have cons' := step_consistent p e p' h.cons step
  cases step with
  | crash reopen fresh => cases waits
  | @act _ act outcome run fits =>
    refine ⟨cons', ?_⟩
    obtain ⟨s, row, isOpen, start, stop⟩ := h.stream
    by_cases other : onOq act ≠ some i
    · have next : p' = (p.exec act).1 := by rw [run]
      rw [next]
      exact ⟨s, oqs_exec other row, isOpen, start, stop⟩
    · rcases waits with away | ⟨error, rfl⟩
      · exact absurd away other
      rw [not_not] at other
      rcases exec_threw run with rfl | ⟨j, io, t, rfl, -⟩ |
        ⟨j, chunk, stray, io, t, q', rfl, row', -, -, -, rfl⟩
      · exact ⟨s, row, isOpen, start, stop⟩
      · cases other
      · obtain rfl := Option.some.inj other
        obtain rfl : s = t := Option.some.inj (row.symm.trans row')
        exact ⟨_, row_setOqstream row, isOpen, start, stop⟩

def Clears (range : Finset ℕ) (q q' : Queue) : Prop :=
  (∀ n ∈ range, (⟨.chunk, n⟩ : Key) ∉ q'.contents) ∧
  ∀ key, (∀ n ∈ range, key ≠ ⟨.chunk, n⟩) → q'.contents.lookup key = q.contents.lookup key

theorem clears_cancel {p : Process} {i : ℕ} {s s' : OQStream} {q' : Queue} {ok : Bool}
    (cons : Consistent (config p)) (row : p.oqs[i]? = some s)
    (h : s.cancel p.queue ok = .ok (s', q')) : Clears s.reserved p.queue q' := by
  obtain ⟨isOpen, -, ⟨multi, erase⟩ | ⟨single, rfl⟩⟩ := OQStream.cancel_ok h
  · have mem : s ∈ (config p).writers :=
      List.mem_filterMap.mpr ⟨s, List.mem_of_getElem? row, writer_open isOpen⟩
    have ids : ∀ n, (⟨.chunk, n⟩ : Key) ∈ s.header.chunkKeys ↔ n ∈ s.reserved := fun n =>
      cons.layout.mem_chunkKeys_iff mem multi
    have lookup := Queue.lookup_eraseChunks erase
    constructor
    · intro n inside stored
      obtain ⟨value, found⟩ := mem_iff_lookup.mp stored
      rw [lookup, if_pos ((ids n).mpr inside)] at found
      cases found
    · rintro ⟨_ | _, n⟩ outside
      · rw [lookup, if_neg (Header.queue_notMem_chunkKeys _ _)]
      · rw [lookup, if_neg fun inside => outside n ((ids n).mp inside) rfl]
  · rw [OQStream.reserved_single single]
    exact ⟨fun n inside => absurd inside (Finset.notMem_empty n), fun _ _ => rfl⟩

theorem clears_step {p p' : Process} {i : ℕ} {s : OQStream} {outcome : Outcome}
    (cons : Consistent (config p)) (row : p.oqs[i]? = some s) (isOpen : s.queue.isSome)
    (step : (∃ ok, Process.Step p (.act (.ocancel i ok) .done) p') ∨
      Process.Step p (.act (.odestruct i true) outcome) p') : Clears s.reserved p.queue p'.queue := by
  rcases step with ⟨ok, step⟩ | step
  · cases step with
    | act run fits =>
      simp only [Process.exec, Process.onOqstream, row] at run
      cases cancel : s.cancel p.queue ok with
      | error e =>
        rw [cancel] at run
        cases run
      | ok pair =>
        rw [cancel] at run
        cases run
        exact clears_cancel cons row cancel
  · cases step with
    | act run fits =>
      simp only [Process.exec, Process.onOqstream, row] at run
      cases run
      simp only [Process.setOqstream, OQStream.destruct, isOpen, if_true]
      cases cancel : s.cancel p.queue true with
      | error e =>
        exfalso
        simp [OQStream.cancel, Option.isSome_iff_ne_none.mp isOpen, Queue.eraseChunks, Queue.write]
          at cancel
        split at cancel <;> cases cancel
      | ok pair => exact clears_cancel cons row cancel

/-- A read of the iqstream at `j` of which no journal call fails: what it returns or
throws, and where `tell()` is afterwards. -/
def goodRead (p : Process) (j : ℕ) : Outcome × Option ℕ :=
  let (p', outcome) := p.exec (.iread j fun _ => true)
  (outcome, (p'.iqs[j]?).map IQStream.tell)

theorem goodRead_eq {p : Process} {j : ℕ} {s : IQStream} (row : p.iqs[j]? = some s) :
    goodRead p j = (.ofRead (s.read p.queue fun _ => true).1,
      some (s.read p.queue fun _ => true).2.tell) := by
  simp only [goodRead, exec_iread _ row, row_setIqstream row, Option.map_some]

/-- A call that throws loses nothing. The items of the queue are as they were. An
iqstream keeps its item: whatever the other objects do and however often the stream
throws again, a good read then is what it would have been, and destroying the stream
makes the id available. An oqstream has published nothing since it was opened, and
once it is cancelled or destroyed none of its chunks is left and no other key changed. -/
theorem failures_lose_nothing {path : Bytes} {p p' : Process} {act : Act} {error : Error}
    (reachable : Reachable Process.Step (Process.created path) p)
    (threw : Process.Step p (.act act (.threw error)) p') :
    SameState p.queue p'.queue ∧
    (∀ j s, onIq act = some j → p.iqs[j]? = some s → s.queue.isSome →
      (∃ s', p'.iqs[j]? = some s' ∧ s'.queue.isSome ∧ s'.id = s.id) ∧
      ∀ es p₂, Runs Process.Step p' es p₂ → (∀ e ∈ es, WaitsIq j e) →
        goodRead p₂ j = goodRead p j ∧ (p₂.exec (.idestruct j)).1.queue.Available s.id) ∧
    ∀ i s, onOq act = some i → p.oqs[i]? = some s → s.queue.isSome →
      (∀ a b call outcome es, Reachable Process.Step (Process.created path) a →
        Process.Step a (.act call outcome) b → onOq call = some i → Runs Process.Step b es p →
        (∀ e ∈ es, opens i e = false) → Queue.SameItems a.queue b.queue) ∧
      ∀ es p₂, Runs Process.Step p' es p₂ → (∀ e ∈ es, WaitsOq i e) → ∀ outcome p₃,
        ((∃ ok, Process.Step p₂ (.act (.ocancel i ok) .done) p₃) ∨
          Process.Step p₂ (.act (.odestruct i true) outcome) p₃) →
        Clears s.reserved p₂.queue p₃.queue := by
  have cons := reachable_consistent reachable
  have placed := reachable_placed reachable
  refine ⟨?_, fun j s on row isOpen => ?_, fun i s on row isOpen => ?_⟩
  · cases threw with
    | act run fits => exact sameState_threw run
  · have waits : WaitsIq j (.act act (.threw error)) := .inr ⟨error, rfl⟩
    have start : Retrying j s.id (s.read p.queue fun _ => true) p :=
      ⟨cons, placed, s, row, isOpen, rfl, rfl⟩
    have failed := step_retrying _ _ _ waits start threw
    refine ⟨?_, fun es p₂ run labels => ?_⟩
    · obtain ⟨s', row', isOpen', same, -⟩ := failed.stream
      exact ⟨s', row', isOpen', same⟩
    · obtain ⟨s₂, row₂, isOpen₂, same, read⟩ :=
        (run.preserves step_retrying labels failed).stream
      constructor
      · rw [goodRead_eq row₂, goodRead_eq row, read]
      · simp only [Process.exec, Process.onIqstream, row₂, Process.setIqstream]
        rw [IQStream.destruct_open isOpen₂, (Queue.sameItems_wakeUp _).available,
          Queue.available_putBack, same]
        exact .inl rfl
  · constructor
    · intro a b call outcome es reached step called run keeps
      by_contra changed
      have closed : ClosedAt i b := by
        intro s' row'
        cases hq : s'.queue with
        | none => rfl
        | some address =>
          cases step with
          | act call fits =>
            exact absurd (sameItems_open (reachable_unwritten reached) call called row'
              (by rw [hq]; rfl)) changed
      have last := run.preserves step_closedAt keeps closed
      rw [last s row] at isOpen
      cases isOpen
    · intro es p₂ run labels outcome p₃ step
      have waits : WaitsOq i (.act act (.threw error)) := .inr ⟨error, rfl⟩
      have start : OpenPush i s.header.beg s.header.end_ p := ⟨cons, s, row, isOpen, rfl, rfl⟩
      have pushing := run.preserves step_pushing labels (step_pushing _ _ _ waits start threw)
      obtain ⟨s₂, row₂, isOpen₂, start₂, stop₂⟩ := pushing.stream
      have range : s₂.reserved = s.reserved := by
        simp only [OQStream.reserved, Header.range, start₂, stop₂]
      rw [← range]
      exact clears_step pushing.cons row₂ isOpen₂ step

def popped : Process :=
  (Process.created [113]).run [.newOqstream, .oopen 0 2 false, .owrite 0 [97] 0 fun _ => true,
    .owrite 0 [98, 99] 0 fun _ => true, .newIqstream, .iopen 0]

theorem reachable_popped : Reachable Process.Step (Process.created [113]) popped :=
  ⟨_, Process.runs_events _ _ (by decide)⟩

theorem failures_lose_nothing_popped :
    let failed := (popped.exec (.iread 0 fun n => n = 0)).1
    Process.Step popped (.act (.iread 0 fun n => n = 0) (.threw .ioError)) failed ∧
      goodRead failed 0 = goodRead popped 0 ∧ goodRead popped 0 = (.chunk [97], some 1) := by
  intro failed
  have threw : Process.Step popped (.act (.iread 0 fun n => n = 0) (.threw .ioError)) failed :=
    .act rfl (by decide)
  obtain ⟨-, reader, -⟩ := failures_lose_nothing reachable_popped threw
  have again := (reader 0 _ rfl rfl (by decide)).2 [] failed (.nil _) (by simp)
  exact ⟨threw, again.1, by decide⟩

end Darner.JournalFailures
