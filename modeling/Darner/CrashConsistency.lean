import Darner.ChunkLayout
import Darner.QueuePartition

/-! The chunk layout along every run of streams. Each journal write is one step of
the log, and what is shown of an image is shown of the image after every write, so
also between the chunks and the header of one push. A restart on such an image
begins with counters that lie beyond everything the image holds. -/

namespace Darner.CrashConsistency
open OrderedStore LabelledRuns StreamMoves QueuePartition QueueRecovery ChunkLayout

theorem header_popRead (q : Queue) (header : Header) (id : ℕ) (ok : Bool) :
    (q.popRead header id ok).2 = header ∨ (q.popRead header id ok).2 = {} ∨
      HeaderAt q.contents id (q.popRead header id ok).2 := by
  unfold Queue.popRead Queue.get
  cases hv : q.contents.lookup ⟨.queue, id⟩ with
  | none => exact .inl rfl
  | some value =>
    cases ok with
    | false => exact .inl rfl
    | true =>
      cases hs : Stored.ofValue value with
      | item bytes => simp [hs]
      | bad => simp [hs]
      | header stored =>
        simp only [if_true, hs]
        exact .inr (.inr ⟨value, hv, hs⟩)

theorem header_readEntry (s : IQStream) (q : Queue) (ok : Bool) :
    (s.readEntry q ok).2.header = s.header ∨ (s.readEntry q ok).2.header.end_ ≤ 1 ∨
      HeaderAt q.contents s.id (s.readEntry q ok).2.header := by
  have learnt := header_popRead q s.header s.id ok
  unfold IQStream.readEntry
  rcases hr : q.popRead s.header s.id ok with ⟨result, header⟩
  rw [hr] at learnt
  cases result with
  | error e =>
    rcases learnt with same | none | stored
    · exact .inl same
    · exact .inr (.inl (by simp only at none; simp [none]))
    · exact .inr (.inr stored)
  | ok result =>
    dsimp only
    split
    case isTrue multi =>
      rcases learnt with same | none | stored
      · exact .inl same
      · exact .inr (.inl (by simp only at none; simp [none]))
      · exact .inr (.inr stored)
    case isFalse single => exact .inr (.inl (by simpa using single))

theorem header_readChunk (s : IQStream) (q : Queue) (result : Bytes) (ok : Bool) :
    (s.readChunk q result ok).2.header = s.header := by
  unfold IQStream.readChunk
  split <;> rfl

theorem header_read (s : IQStream) (q : Queue) (io : Io) :
    (s.read q io).2.header = s.header ∨ (s.read q io).2.header.end_ ≤ 1 ∨
      HeaderAt q.contents s.id (s.read q io).2.header := by
  unfold IQStream.read
  split
  · exact .inl rfl
  · split
    · have entry := header_readEntry s q (io 0)
      rcases hr : s.readEntry q (io 0) with ⟨result, s'⟩
      rw [hr] at entry
      cases result with
      | error e => exact entry
      | ok result => simpa only [header_readChunk] using entry
    · exact .inl (header_readChunk s q [] (io 1))

/-- A write puts no queue entry over one that is there. -/
def FreshPuts (image : Image) (entry : Write Key Bytes) : Prop :=
  ∀ id value, .put ⟨.queue, id⟩ value ∈ entry.ops → (⟨.queue, id⟩ : Key) ∉ image

structure Consistent (c : Config) : Prop where
  own : c.queue.Ownership (heldIds c)
  images : ∀ n, Intact (c.queue.journal.imageAt n)
  fresh : c.queue.journal.Each FreshPuts
  layout : Layout c.queue.contents c.queue.chunksHead.id c.readers c.writers

theorem head_not_stored {q : Queue} {held : List ℕ} (own : q.Ownership held) :
    (⟨.queue, q.queueHead.id⟩ : Key) ∉ q.contents := by
  intro stored
  have := own.tail_le_head
  rcases own.covered _ stored with (returned | ⟨-, less⟩) | mem
  · have := own.returned_lt _ returned
    omega
  · omega
  · have := own.held_lt _ mem
    omega

theorem contents_wakeUp (q : Queue) : q.wakeUp.contents = q.contents := by
  obtain ⟨ws, it, h⟩ := q.wakeUp_eq
  rw [h]
  rfl

theorem chunksHead_wakeUp (q : Queue) : q.wakeUp.chunksHead = q.chunksHead := by
  obtain ⟨ws, it, h⟩ := q.wakeUp_eq
  rw [h]

theorem journal_wakeUp (q : Queue) : q.wakeUp.journal = q.journal := by
  obtain ⟨ws, it, h⟩ := q.wakeUp_eq
  rw [h]

theorem contents_pushed {q : Queue} (type : q.queueHead.type = .queue) (value : Bytes)
    (sync : Bool) :
    (q.pushed value sync).wakeUp.contents = q.contents.insert ⟨.queue, q.queueHead.id⟩ value := by
  rw [contents_wakeUp, ← type, Queue.contents, Queue.pushed, Journal.contents_write,
    apply_put]
  rfl

theorem put_head {q : Queue} {value : Bytes} (coded : Coded value) :
    ∀ id v, .put ⟨.queue, id⟩ v ∈ [Op.put q.queueHead value] →
      q.queueHead = ⟨.queue, id⟩ ∧ Coded v := by
  intro id v mem
  simp only [List.mem_singleton, Op.put.injEq] at mem
  exact ⟨mem.1.symm, mem.2 ▸ coded⟩

theorem put_no_chunk {q : Queue} {value : Bytes} {solid : Bytes → Prop}
    (head_type : q.queueHead.type = .queue) :
    ∀ n chunk, .put ⟨.chunk, n⟩ chunk ∈ [Op.put q.queueHead value] → solid chunk := by
  intro n chunk mem
  simp only [List.mem_singleton, Op.put.injEq] at mem
  rw [← mem.1] at head_type
  cases head_type

/-- Every move issues at most one journal write, and puts at most the head, with what a push
stores, or a solid chunk. -/
theorem move_journal {bounded : ℕ → Prop} {solid : Bytes → Prop} {c c' : Config}
    (head_type : c.queue.queueHead.type = .queue) (move : Move bounded solid c c') :
    c'.queue.journal = c.queue.journal ∨
    ∃ entry, c'.queue.journal = c.queue.journal.write entry ∧
      (∀ id value, .put ⟨.queue, id⟩ value ∈ entry.ops →
        c.queue.queueHead = ⟨.queue, id⟩ ∧ Coded value) ∧
      ∀ n chunk, .put ⟨.chunk, n⟩ chunk ∈ entry.ops → solid chunk := by
  cases move with
  | perm left right => exact .inl rfl
  | popBegin address h =>
    rcases Queue.popBegin_some h with ⟨-, -, rfl⟩ | ⟨-, -, -, rfl⟩ <;> exact .inl rfl
  | read isOpen io => exact .inl rfl
  | @popEnd q q' s readers writers erase ok h =>
    cases erase with
    | true =>
      obtain ⟨n, ranges, rfl⟩ := Queue.popEnd_erase h
      exact .inr ⟨_, rfl, by simp, by simp⟩
    | false =>
      rw [Queue.popEnd_return] at h
      obtain rfl := Except.ok.inj h
      exact .inl (journal_wakeUp _)
  | openSingle header pos => exact .inl rfl
  | openMulti several fits header pos => exact .inl rfl
  | pushItem single h =>
    obtain ⟨-, rfl⟩ := Queue.pushValue_ok h
    exact .inr ⟨_, journal_wakeUp _, put_head (.item _ _ rfl), put_no_chunk head_type⟩
  | writeChunk multi unfinished full h =>
    obtain rfl := Queue.put_ok h
    refine .inr ⟨_, rfl, by simp, ?_⟩
    intro n chunk mem
    simp only [List.mem_singleton, Op.put.injEq] at mem
    rw [mem.2]
    exact full
  | publish multi finished fits h =>
    obtain ⟨-, rfl⟩ := Queue.pushValue_ok h
    exact .inr ⟨_, journal_wakeUp _, put_head (.header _ rfl), put_no_chunk head_type⟩
  | cancel multi h =>
    obtain rfl := Queue.write_ok h
    exact .inr ⟨_, rfl, by simp, by simp⟩
  | drop => exact .inl rfl
  | @destroy q readers writers taken =>
    left
    simp only [Queue.destroy]
    split <;> rfl

theorem move_layout {solid : Bytes → Prop} {c c' : Config} (cons : Consistent c)
    (move : Move (· < wordSize) solid c c') :
    Layout c'.queue.contents c'.queue.chunksHead.id c'.readers c'.writers := by
  have own := cons.own
  have lay := cons.layout
  cases move with
  | perm left right => exact lay.perm left right
  | popBegin address h =>
    rcases Queue.popBegin_some h with ⟨-, -, rfl⟩ | ⟨-, -, -, rfl⟩
    · exact lay.consReader fun multi => absurd multi (by simp)
    · exact lay.consReader fun multi => absurd multi (by simp)
  | @read q s readers writers isOpen io =>
    apply lay.dropReader.consReader
    intro multi
    rw [IQStream.id_read]
    rcases header_read s q io with same | single | stored
    · rw [same] at multi ⊢
      exact lay.known s List.mem_cons_self multi
    · omega
    · exact stored
  | @popEnd q q' s readers writers erase ok h =>
    cases erase with
    | true =>
      obtain ⟨n, ranges, rfl⟩ := Queue.popEnd_erase h
      have single : ∀ t ∈ readers, t.id ≠ s.id := by
        intro t mem same
        have nodup : (s.id :: readers.map IQStream.id).Nodup := own.held_nodup
        apply (List.nodup_cons.mp nodup).1
        rw [← same]
        exact List.mem_map_of_mem mem
      have contents : (q.erased s.id s.header).contents =
          apply q.contents ⟨(Queue.itemKeys s.id s.header).map .delete, false⟩ :=
        Journal.contents_write _ _
      exact contents ▸ lay.erase single
    | false =>
      rw [Queue.popEnd_return] at h
      obtain rfl := Except.ok.inj h
      rw [contents_wakeUp, chunksHead_wakeUp]
      exact lay.dropReader
  | @openSingle q readers writers s header pos =>
    have single : s.reserved = ∅ := OQStream.reserved_single (by rw [header])
    refine lay.cons ?_ ?_ ?_
    · rw [header]
      exact fun multi => absurd multi (by simp)
    · simp [single]
    · simp [single]
  | openMulti several fits header pos => exact lay.reserve several fits header pos
  | @pushItem q q' readers writers s chunk stray sync ok id single h =>
    obtain ⟨-, rfl⟩ := Queue.pushValue_ok h
    rw [contents_pushed own.head_type, chunksHead_wakeUp]
    have pushed := lay.pushItem (head_not_stored own) (ofValue_escape chunk stray)
    have none : (({ s with id := id } : OQStream).advance chunk.length).reserved = ∅ :=
      OQStream.reserved_single single
    refine pushed.drop.cons ?_ ?_ ?_
    · exact fun multi => absurd multi (by simpa [OQStream.advance] using single)
    · simp [none]
    · simp [none]
  | writeChunk multi unfinished full h =>
    obtain rfl := Queue.put_ok h
    simp only [Queue.contents, Journal.contents_write, apply_put]
    exact lay.writeChunk multi unfinished _
  | publish multi finished fits h =>
    obtain ⟨-, rfl⟩ := Queue.pushValue_ok h
    rw [contents_pushed own.head_type, chunksHead_wakeUp]
    exact lay.publish (head_not_stored own) multi finished fits
  | cancel multi h =>
    obtain rfl := Queue.write_ok h
    simp only [Queue.contents, Journal.contents_write]
    exact lay.cancel multi
  | drop => exact lay.drop
  | @destroy q readers writers taken =>
    simp only [Queue.destroy]
    split <;> exact lay

theorem move_consistent {solid : Bytes → Prop} (c c' : Config) (cons : Consistent c)
    (move : Move (· < wordSize) solid c c') :
    Consistent c' := by
  have layout := move_layout cons move
  refine ⟨itemInvariant_ownership.move c c' cons.own move, ?_, ?_, layout⟩
  · rcases move_journal cons.own.head_type move with same | ⟨entry, write, -⟩
    · rw [same]
      exact cons.images
    · have last := layout.intact
      rw [Queue.contents] at last
      rw [write] at last ⊢
      exact Journal.images_write cons.images last
  · rcases move_journal cons.own.head_type move with same | ⟨entry, write, head, -⟩
    · rw [same]
      exact cons.fresh
    · rw [write]
      apply Journal.each_write cons.fresh
      intro id value put stored
      have key := (head id value put).1
      apply head_not_stored cons.own
      rw [key]
      exact stored

theorem consistent_recovered {image : Image} {path : Bytes} {q : Queue}
    (rec : Recovered image path q) (intact : Intact image) : Consistent ⟨q, [], []⟩ := by
  have contents : q.contents = image := by rw [Queue.contents, rec.journal, Journal.contents_fresh]
  refine
    { own := rec.ownership
      images := fun n => by rw [rec.journal, Journal.imageAt_fresh]; exact intact
      fresh := fun n entry h => by simp [rec.journal] at h
      layout := ?_ }
  simp only [contents]
  refine
    { intact := intact, below := rec.chunks, small := ?_, unfinished := by simp
      apart := List.Pairwise.nil, clear := by simp, known := by simp }
  rcases rec.chunks_pos with zero | ⟨n, mem, next⟩
  · rw [zero]
    exact Nat.two_pow_pos 64
  · rw [next]
    exact intact.small n mem

theorem consistent_blank {image : Image} (path : Bytes) (empty : ∀ key, key ∉ image) :
    Consistent ⟨.blank image path, [], []⟩ := by
  have contents : (Queue.blank image path).contents = image := Journal.contents_fresh image
  refine
    { own := ownership_blank path empty
      images := fun n => by
        rw [Queue.blank, Journal.imageAt_fresh]
        exact intact_empty empty
      fresh := fun n entry h => by simp [Queue.blank] at h
      layout := ?_ }
  exact
    { intact := contents ▸ intact_empty empty, below := fun n h => absurd h (empty _)
      small := Nat.two_pow_pos 64, unfinished := by simp, apart := List.Pairwise.nil
      clear := by simp, known := by simp }

theorem step_consistent (p : Process) (e : Process.Event) (p' : Process)
    (cons : Consistent (config p)) (step : Process.Step p e p') : Consistent (config p') := by
  cases step with
  | @act _ act outcome run fits =>
    have next : p' = (p.exec act).1 := by rw [run]
    rw [next] at fits ⊢
    have moves : Moves (· < wordSize) (fun _ => True) (config p) (config (p.exec act).1) :=
      exec_moves p act ⟨fits.chunks, fits.sizes⟩
    exact moves.invariant move_consistent cons
  | @crash _ writes reopen fresh =>
    have intact := cons.images writes
    simp only [config] at intact
    rcases reopen with ⟨id, mem⟩ | empty
    · obtain ⟨q, hq, rec⟩ := new_queue p.queue.path mem
      simp only [Process.start, hq, Option.map_some, Option.some.injEq] at fresh
      rw [← fresh]
      exact consistent_recovered rec intact
    · simp only [Process.start, new_empty _ empty, Option.map_some, Option.some.injEq] at fresh
      rw [← fresh]
      exact consistent_blank _ empty

theorem reachable_consistent {path : Bytes} {p : Process}
    (h : Reachable Process.Step (Process.created path) p) : Consistent (config p) := by
  have init : Consistent (config (Process.created path)) :=
    consistent_blank path fun _ => Finmap.notMem_empty
  exact h.invariant (P := fun p => Consistent (config p)) init step_consistent

/-- At every journal write of every run, the chunks of every stored header are all
there and have its size together, and no two stored headers share a chunk. -/
theorem headers_whole_at_every_write {path : Bytes} {p : Process}
    (h : Reachable Process.Step (Process.created path) p) (writes : ℕ) :
    let image := p.queue.journal.imageAt writes
    (∀ id header, HeaderAt image id header →
      (∀ n, header.beg ≤ n → n < header.end_ → (⟨.chunk, n⟩ : Key) ∈ image) ∧
      ∑ n ∈ Finset.Ico header.beg header.end_, (chunkAt image n).length = header.size) ∧
    ∀ id id' header header', id ≠ id' → HeaderAt image id header → HeaderAt image id' header' →
      Disjoint (Finset.Ico header.beg header.end_) (Finset.Ico header'.beg header'.end_) := by
  intro image
  have intact : Intact image := (reachable_consistent h).images writes
  refine ⟨fun id header stored => ?_, fun id id' header header' => intact.apart⟩
  have filled := intact.filled stored
  exact ⟨filled.present, filled.sum⟩

/-- Two pushes of two chunks each. The sixth write is the header of the second. -/
def chunkedPushes : List Act :=
  [.newOqstream, .oopen 0 2 false, .owrite 0 [97] 0 fun _ => true, .owrite 0 [98, 99] 0 fun _ => true,
    .oopen 0 2 false, .owrite 0 [100] 0 fun _ => true, .owrite 0 [101] 0 fun _ => true]

theorem reachable_chunkedPushes :
    Reachable Process.Step (Process.created [113]) ((Process.created [113]).run chunkedPushes) :=
  ⟨_, Process.runs_events _ _ (by decide)⟩

theorem headers_whole_after_crash :
    HeaderAt (((Process.created [113]).run chunkedPushes).queue.journal.imageAt 5) 0 ⟨0, 2, 3⟩ ∧
    (⟨.chunk, 1⟩ : Key) ∈ ((Process.created [113]).run chunkedPushes).queue.journal.imageAt 5 := by
  have stored : HeaderAt (((Process.created [113]).run chunkedPushes).queue.journal.imageAt 5) 0
      ⟨0, 2, 3⟩ := ⟨Header.str ⟨0, 2, 3⟩, by decide, by decide⟩
  have whole := (headers_whole_at_every_write reachable_chunkedPushes 5).1 0 ⟨0, 2, 3⟩ stored
  exact ⟨stored, whole.1 1 (by decide) (by decide)⟩

/-- Over any number of restarts, no push puts its entry over another one, and no
reservation takes a chunk id that is in the journal or in the range of a header. -/
theorem allocations_fresh {path : Bytes} {p : Process}
    (h : Reachable Process.Step (Process.created path) p) :
    (∀ n entry, p.queue.journal.log[n]? = some entry → ∀ id value,
      .put ⟨.queue, id⟩ value ∈ entry.ops → (⟨.queue, id⟩ : Key) ∉ p.queue.journal.imageAt n) ∧
    (∀ value sync ok id q', p.queue.pushValue value sync ok = .ok (id, q') →
      (⟨.queue, id⟩ : Key) ∉ p.queue.contents) ∧
    ∀ count n, (p.queue.reserveChunks count).1.beg ≤ n → n < (p.queue.reserveChunks count).1.end_ →
      (⟨.chunk, n⟩ : Key) ∉ p.queue.contents ∧
      ∀ id header, HeaderAt p.queue.contents id header → ¬(header.beg ≤ n ∧ n < header.end_) := by
  have cons := reachable_consistent h
  have lay : Layout p.queue.contents p.queue.chunksHead.id _ _ := cons.layout
  refine ⟨cons.fresh, ?_, ?_⟩
  · intro value sync ok id q' push
    obtain ⟨rfl, -⟩ := Queue.pushValue_ok push
    exact head_not_stored cons.own
  · intro count n first _
    have beyond : p.queue.chunksHead.id ≤ n := first
    constructor
    · intro mem
      have := lay.below n mem
      omega
    · rintro id header stored ⟨-, inside⟩
      have := lay.range_lt stored
      omega

def beforeLastHeader : Image :=
  ((Process.created [113]).run chunkedPushes).queue.journal.imageAt 5

theorem allocations_fresh_after_crash : ∃ p,
    Reachable Process.Step (Process.created [113]) p ∧ p.queue.chunksHead.id = 4 ∧
      (⟨.chunk, 4⟩ : Key) ∉ p.queue.contents := by
  have counted : (Process.start beforeLastHeader [113]).map (·.queue.chunksHead.id) = some 4 := by
    decide
  obtain ⟨p, start, counter⟩ := Option.map_eq_some_iff.mp counted
  have reopen : Process.Reopenable beforeLastHeader := .inl ⟨0, by decide⟩
  have reachable := reachable_chunkedPushes.next (.crash reopen start)
  have fresh := (allocations_fresh reachable).2.2 2 4
    (by simp [Queue.reserveChunks, counter]) (by simp [Queue.reserveChunks, counter])
  exact ⟨p, reachable, counter, fresh.1⟩

end Darner.CrashConsistency
