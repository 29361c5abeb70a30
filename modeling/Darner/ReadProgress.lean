import Darner.ServerMoves
import Darner.StoredItems
import Mathlib.Algebra.Order.BigOperators.Group.Finset

/-! How far an iqstream has read. No chunk in the journal is empty, so the bytes
that a stream has told reach the size of its item only with the last chunk: a
handler that compares `tell()` with `size()` knows that the item is read to its
end. -/

namespace Darner.ReadProgress
open OrderedStore StreamMoves QueuePartition QueueRecovery ChunkLayout CrashConsistency StoredItems
open ServerMoves

def Solid (image : Image) : Prop :=
  ∀ n chunk, image.lookup ⟨.chunk, n⟩ = some chunk → chunk ≠ []

/-- What an open iqstream knows about its item. -/
inductive Progress (image : Image) (stream : IQStream) : Prop where
  | fresh (header : stream.header = {}) (pos : stream.chunkPos = 0) (tell : stream.tell = 0)
  | single {value bytes : Bytes} (entry : image.lookup ⟨.queue, stream.id⟩ = some value)
      (item : Stored.ofValue value = .item bytes) (stop : stream.header.end_ = 1)
      (pos : stream.chunkPos = 1)
  | multi (entry : HeaderAt image stream.id stream.header)
      (start : stream.header.beg ≤ stream.chunkPos) (stop : stream.chunkPos ≤ stream.header.end_)
      (tell : stream.tell =
        ∑ n ∈ Finset.Ico stream.header.beg stream.chunkPos, (chunkAt image n).length)

def ReadAll (image : Image) (stream : IQStream) : Prop :=
  stream.chunkPos = stream.header.end_ ∧
  (HeaderAt image stream.id stream.header ∨
    stream.header.end_ = 1 ∧ ∃ value bytes, image.lookup ⟨.queue, stream.id⟩ = some value ∧
      Stored.ofValue value = .item bytes)

theorem length_pos {image : Image} (solid : Solid image) {n : ℕ}
    (mem : (⟨.chunk, n⟩ : Key) ∈ image) : 0 < (chunkAt image n).length := by
  obtain ⟨chunk, found⟩ := mem_iff_lookup.mp mem
  rw [chunkAt, found, Option.getD_some]
  exact List.length_pos_iff.mpr (solid n chunk found)

theorem Progress.readAll {image : Image} {stream : IQStream} (h : Progress image stream)
    (intact : Intact image) (solid : Solid image) (begun : stream.chunkPos ≠ 0)
    (told : stream.tell = stream.size) : ReadAll image stream := by
  cases h with
  | fresh header pos tell => exact absurd pos begun
  | single entry item stop pos => exact ⟨pos.trans stop.symm, .inr ⟨stop, _, _, entry, item⟩⟩
  | multi entry start stop tell =>
    refine ⟨?_, .inl entry⟩
    have filled := intact.filled entry
    by_contra unfinished
    -- the chunk at `chunk_pos_` would add at least one byte to the bytes told
    have split := Finset.sum_Ico_consecutive (fun n => (chunkAt image n).length) start stop
    rw [filled.sum, ← tell] at split
    have rest : 0 < ∑ n ∈ Finset.Ico stream.chunkPos stream.header.end_,
        (chunkAt image n).length := by
      apply Finset.sum_pos
      · intro n mem
        obtain ⟨first, last⟩ := Finset.mem_Ico.mp mem
        exact length_pos solid (filled.present n (by omega) last)
      · exact ⟨stream.chunkPos, Finset.mem_Ico.mpr ⟨le_refl _, by omega⟩⟩
    rw [IQStream.size] at told
    omega

theorem Progress.congr {image image' : Image} {stream : IQStream} (h : Progress image stream)
    (entry : ∀ value, image.lookup ⟨.queue, stream.id⟩ = some value →
      image'.lookup ⟨.queue, stream.id⟩ = some value)
    (chunks : ∀ header, HeaderAt image stream.id header → ∀ n ∈ header.range,
      image'.lookup ⟨.chunk, n⟩ = image.lookup ⟨.chunk, n⟩) : Progress image' stream := by
  cases h with
  | fresh header pos tell => exact .fresh header pos tell
  | single found item stop pos => exact .single (entry _ found) item stop pos
  | multi stored start stop tell =>
    obtain ⟨value, found, isHeader⟩ := id stored
    refine .multi ⟨value, entry value found, isHeader⟩ start stop ?_
    rw [tell]
    apply Finset.sum_congr rfl
    intro n mem
    obtain ⟨first, last⟩ := Finset.mem_Ico.mp mem
    rw [chunkAt, chunkAt, chunks _ stored n (Finset.mem_Ico.mpr ⟨first, by omega⟩)]

theorem readChunk_cases (stream : IQStream) (q : Queue) (result : Bytes) (ok : Bool)
    (multi : stream.header.end_ > 1) :
    (∃ e, stream.readChunk q result ok = (.error e, stream)) ∨
    ∃ chunk, q.contents.lookup ⟨.chunk, stream.chunkPos⟩ = some chunk ∧
      stream.readChunk q result ok = (.ok chunk,
        { stream with chunkPos := stream.chunkPos + 1, tell := stream.tell + chunk.length }) := by
  simp only [IQStream.readChunk, if_pos multi, Queue.readChunk, Queue.get]
  cases found : q.contents.lookup ⟨.chunk, stream.chunkPos⟩ with
  | none => exact .inl ⟨_, rfl⟩
  | some chunk =>
    cases ok with
    | false => exact .inl ⟨_, rfl⟩
    | true => exact .inr ⟨chunk, rfl, rfl⟩

theorem readEntry_cases (stream : IQStream) (q : Queue) (ok : Bool) :
    (∃ e, stream.readEntry q ok = (.error e, stream)) ∨
    ∃ value, q.contents.lookup ⟨.queue, stream.id⟩ = some value ∧
      ((Stored.ofValue value = .bad ∧
          stream.readEntry q ok = (.error .ioError, { stream with header := {} })) ∨
      (∃ bytes, Stored.ofValue value = .item bytes ∧ stream.readEntry q ok =
          (.ok bytes, { stream with header := { ({} : Header) with size := bytes.length } })) ∨
      ∃ header, Stored.ofValue value = .header header ∧
        (header.end_ > 1 → stream.readEntry q ok =
          (.ok value, { stream with header := header, chunkPos := header.beg }))) := by
  simp only [IQStream.readEntry, Queue.popRead, Queue.get]
  cases found : q.contents.lookup ⟨.queue, stream.id⟩ with
  | none => exact .inl ⟨_, rfl⟩
  | some value =>
    cases ok with
    | false => exact .inl ⟨_, rfl⟩
    | true =>
      right
      refine ⟨value, rfl, ?_⟩
      cases kind : Stored.ofValue value with
      | bad => exact .inl ⟨rfl, by simp [kind]⟩
      | item bytes => exact .inr (.inl ⟨bytes, rfl, by simp [kind]⟩)
      | header header =>
        refine .inr (.inr ⟨header, rfl, fun multi => ?_⟩)
        simp [kind, multi]

theorem progress_readChunk {q : Queue} (stream : IQStream) (result : Bytes) (ok : Bool)
    (intact : Intact q.contents) (entry : HeaderAt q.contents stream.id stream.header)
    (start : stream.header.beg ≤ stream.chunkPos) (unfinished : stream.chunkPos < stream.header.end_)
    (tell : stream.tell =
      ∑ n ∈ Finset.Ico stream.header.beg stream.chunkPos, (chunkAt q.contents n).length) :
    Progress q.contents (stream.readChunk q result ok).2 ∧
    (∀ bytes, (stream.readChunk q result ok).1 = .ok bytes →
      (stream.readChunk q result ok).2.chunkPos ≠ 0) := by
  have several := intact.several entry
  rcases readChunk_cases stream q result ok (by omega) with
    ⟨e, h⟩ | ⟨chunk, found, h⟩
  · rw [h]
    exact ⟨.multi entry start (le_of_lt unfinished) tell, by simp⟩
  · rw [h]
    refine ⟨.multi entry (Nat.le_succ_of_le start) unfinished ?_, by simp⟩
    simp only
    rw [Finset.sum_Ico_succ_top start, ← tell, chunkAt, found, Option.getD_some]

theorem Progress.tell_zero {image : Image} {stream : IQStream} (h : Progress image stream)
    (first : stream.chunkPos = 0) : stream.tell = 0 := by
  cases h with
  | fresh header pos tell => exact tell
  | single entry item stop pos => omega
  | multi entry start stop tell => rw [tell, first, Finset.Ico_eq_empty (by omega), Finset.sum_empty]

theorem progress_read {q : Queue} {stream : IQStream} (io : Io) (intact : Intact q.contents)
    (h : Progress q.contents stream) :
    Progress q.contents (stream.read q io).2 ∧
    (∀ bytes, (stream.read q io).1 = .ok bytes → (stream.read q io).2.chunkPos ≠ 0) := by
  unfold IQStream.read
  split
  · exact ⟨h, by simp⟩
  case isFalse more =>
    rw [not_or] at more
    split
    case isTrue first =>
      have tell := h.tell_zero first
      rcases readEntry_cases stream q (io 0) with
        ⟨e, r⟩ | ⟨value, found, ⟨bad, r⟩ | ⟨bytes, item, r⟩ | ⟨header, isHeader, r⟩⟩
      · rw [r]
        exact ⟨h, by simp⟩
      · rw [r]
        exact ⟨.fresh rfl first tell, by simp⟩
      · rw [r]
        refine ⟨.single found item rfl ?_, ?_⟩ <;> simp [IQStream.readChunk, first]
      · have entry : HeaderAt q.contents stream.id header := ⟨value, found, isHeader⟩
        have several := intact.several entry
        rw [r (by omega)]
        refine progress_readChunk { stream with header := header, chunkPos := header.beg }
          value (io 1) intact entry (le_refl _) (by simp only; omega) ?_
        simp only [Finset.Ico_self, Finset.sum_empty]
        exact tell
    case isFalse later =>
      cases h with
      | fresh header pos tell => exact absurd pos later
      | single entry item stop pos => omega
      | multi entry start stop tell =>
        exact progress_readChunk stream [] (io 1) intact entry start (by omega) tell

structure Sound (c : Config) : Prop where
  cons : Consistent c
  solid : ∀ n, Solid (c.queue.journal.imageAt n)
  progress : ∀ stream ∈ c.readers, Progress c.queue.contents stream

theorem solid_contents {q : Queue} (solid : ∀ n, Solid (q.journal.imageAt n)) :
    Solid q.contents := by
  have last := solid q.journal.log.length
  rwa [Journal.imageAt_length] at last

theorem move_solid {bounded : ℕ → Prop} {c c' : Config} (cons : Consistent c)
    (move : Move bounded (· ≠ []) c c') (solid : ∀ n, Solid (c.queue.journal.imageAt n)) :
    ∀ n, Solid (c'.queue.journal.imageAt n) := by
  rcases move_journal cons.own.head_type move with same | ⟨entry, write, -, chunks⟩
  · rw [same]
    exact solid
  · rw [write]
    apply Journal.images_write solid
    intro n chunk found
    rw [Journal.contents_write] at found
    rcases lookup_apply found with old | new
    · exact solid_contents solid n chunk old
    · exact chunks n chunk new

theorem move_readers {bounded : ℕ → Prop} {solid : Bytes → Prop} {c c' : Config}
    (move : Move bounded solid c c') :
    ∀ stream ∈ c'.readers, stream ∈ c.readers ∨
      (∃ address id, stream = { queue := some address, id := id }) ∨
      ∃ before ∈ c.readers, ∃ io, c'.queue = c.queue ∧ stream = (before.read c.queue io).2 := by
  intro stream mem
  cases move with
  | perm left right => exact .inl (left.mem_iff.mpr mem)
  | popBegin address h =>
    rcases List.mem_cons.mp mem with rfl | old
    · exact .inr (.inl ⟨_, _, rfl⟩)
    · exact .inl old
  | read isOpen io =>
    rcases List.mem_cons.mp mem with rfl | old
    · exact .inr (.inr ⟨_, List.mem_cons_self, io, rfl, rfl⟩)
    · exact .inl (List.mem_cons_of_mem _ old)
  | popEnd h => exact .inl (List.mem_cons_of_mem _ mem)
  | _ => exact .inl mem

theorem move_entry {bounded : ℕ → Prop} {solid : Bytes → Prop} {c c' : Config}
    (cons : Consistent c) (move : Move bounded solid c c') {id : ℕ} {value : Bytes}
    (held : id ∈ heldIds c) (held' : id ∈ heldIds c')
    (found : c.queue.contents.lookup ⟨.queue, id⟩ = some value) :
    c'.queue.contents.lookup ⟨.queue, id⟩ = some value := by
  have below : id < c.queue.queueHead.id :=
    lt_of_lt_of_le (cons.own.held_lt id held) cons.own.tail_le_head
  have keeps := (itemInvariant_records id (some value)).move c c' ⟨cons.own, below, fun _ => found⟩ move
  exact keeps.entry (.inr held')

theorem move_progress {c c' : Config} {solid : Bytes → Prop} (cons : Consistent c)
    (move : Move (· < wordSize) solid c c')
    (progress : ∀ stream ∈ c.readers, Progress c.queue.contents stream) :
    ∀ stream ∈ c'.readers, Progress c'.queue.contents stream := by
  intro stream mem
  rcases move_readers move stream mem with old | ⟨address, id, rfl⟩ | ⟨before, old, io, same, rfl⟩
  · have held : stream.id ∈ heldIds c := List.mem_map_of_mem old
    have held' : stream.id ∈ heldIds c' := List.mem_map_of_mem mem
    refine (progress stream old).congr (fun value => move_entry cons move held held') ?_
    exact fun header stored n inside => move_itemChunks cons move stored (.inr held') inside
  · exact .fresh rfl rfl rfl
  · rw [same]
    exact (progress_read io cons.layout.intact (progress before old)).1

theorem Consistent.unseen {q q' : Queue} {readers : List IQStream} {writers : List OQStream}
    (cons : Consistent ⟨q, readers, writers⟩) (unseen : Unseen q q') :
    Consistent ⟨q', readers, writers⟩ where
  own := unseen.same.ownership cons.own
  images n := by
    simp only [unseen.journal]
    exact cons.images n
  fresh := by
    simp only [unseen.journal]
    exact cons.fresh
  layout := by
    simp only [Queue.contents, unseen.journal, unseen.chunks]
    exact cons.layout

theorem change_sound (c c' : Config) (sound : Sound c) (change : Change c c') : Sound c' := by
  cases change with
  | move move =>
    exact
      { cons := move_consistent _ _ sound.cons move
        solid := move_solid sound.cons move sound.solid
        progress := move_progress sound.cons move sound.progress }
  | unseen unseen =>
    refine ⟨Consistent.unseen sound.cons unseen, ?_, ?_⟩
    · simp only [unseen.journal]
      exact sound.solid
    · simp only [Queue.contents, unseen.journal]
      exact sound.progress

end Darner.ReadProgress
