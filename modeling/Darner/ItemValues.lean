import Darner.ReliableFetch

/-! The bytes of the items of a journal. What a reader gets under an id is the entry itself
or the chunks that the entry points at. An id has one such value from its push to its
removal, in the journal and in every crash image of it. -/

namespace Darner.ItemValues
open OrderedStore StreamMoves QueuePartition QueueRecovery ChunkLayout CrashConsistency StoredItems
open ReadProgress ServerMoves

def chunksOf (image : Image) (beg stop : ℕ) : Bytes :=
  (List.range' beg (stop - beg)).flatMap (chunkAt image)

theorem chunksOf_self (image : Image) (beg : ℕ) : chunksOf image beg beg = [] := by
  simp [chunksOf]

theorem chunksOf_congr {image image' : Image} {beg stop : ℕ}
    (same : ∀ n, beg ≤ n → n < stop → image'.lookup ⟨.chunk, n⟩ = image.lookup ⟨.chunk, n⟩) :
    chunksOf image' beg stop = chunksOf image beg stop := by
  unfold chunksOf
  refine List.flatMap_congr fun n mem => ?_
  rw [List.mem_range'_1] at mem
  rw [chunkAt, chunkAt, same n mem.1 (by omega)]

theorem chunksOf_append (image : Image) {beg mid stop : ℕ} (first : beg ≤ mid) (second : mid ≤ stop) :
    chunksOf image beg stop = chunksOf image beg mid ++ chunksOf image mid stop := by
  have split : stop - beg = (mid - beg) + (stop - mid) := by omega
  have start : mid = beg + 1 * (mid - beg) := by omega
  rw [chunksOf, chunksOf, chunksOf, ← List.flatMap_append, split, ← List.range'_append, ← start]

theorem chunksOf_one (image : Image) (n : ℕ) : chunksOf image n (n + 1) = chunkAt image n := by
  simp [chunksOf]

theorem length_chunksOf (image : Image) (beg stop : ℕ) :
    (chunksOf image beg stop).length = ∑ n ∈ Finset.Ico beg stop, (chunkAt image n).length := by
  rcases Nat.le_total stop beg with none | some
  · rw [Finset.Ico_eq_empty_of_le none, chunksOf, Nat.sub_eq_zero_of_le none]
    rfl
  · induction stop, some using Nat.le_induction with
    | base => simp [chunksOf_self]
    | succ stop le ih =>
      rw [chunksOf_append image le (Nat.le_succ stop), List.length_append, ih, chunksOf_one,
        Finset.sum_Ico_succ_top le]

/-- What a reader gets of the item under `id`. -/
def itemAt (image : Image) (id : ℕ) : Option Bytes :=
  (image.lookup ⟨.queue, id⟩).bind fun value =>
    match Stored.ofValue value with
    | .item bytes => some bytes
    | .header header => some (chunksOf image header.beg header.end_)
    | .bad => none

theorem itemAt_header {image : Image} {id : ℕ} {header : Header} (h : HeaderAt image id header) :
    itemAt image id = some (chunksOf image header.beg header.end_) := by
  obtain ⟨value, found, stored⟩ := h
  rw [itemAt, found, Option.bind_some, stored]

theorem itemAt_item {image : Image} {id : ℕ} {value bytes : Bytes}
    (found : image.lookup ⟨.queue, id⟩ = some value) (item : Stored.ofValue value = .item bytes) :
    itemAt image id = some bytes := by
  rw [itemAt, found, Option.bind_some, item]

theorem mem_of_itemAt {image : Image} {id : ℕ} {value : Bytes} (h : itemAt image id = some value) :
    (⟨.queue, id⟩ : Key) ∈ image := by
  obtain ⟨bytes, found, -⟩ := Option.bind_eq_some_iff.mp h
  exact mem_iff_lookup.mpr ⟨bytes, found⟩

theorem itemAt_congr {image image' : Image} {id : ℕ}
    (entry : image'.lookup ⟨.queue, id⟩ = image.lookup ⟨.queue, id⟩)
    (chunks : ∀ header, HeaderAt image id header → ∀ n ∈ header.range,
      image'.lookup ⟨.chunk, n⟩ = image.lookup ⟨.chunk, n⟩) :
    itemAt image' id = itemAt image id := by
  cases found : image.lookup ⟨.queue, id⟩ with
  | none =>
    rw [itemAt, itemAt, entry, found]
    rfl
  | some value =>
    cases stored : Stored.ofValue value with
    | item bytes => rw [itemAt_item found stored, itemAt_item (entry.trans found) stored]
    | header header =>
      have here : HeaderAt image id header := ⟨value, found, stored⟩
      rw [itemAt_header here, itemAt_header ⟨value, entry.trans found, stored⟩]
      refine congrArg some (chunksOf_congr fun n le lt => chunks header here n ?_)
      exact Finset.mem_Ico.mpr ⟨le, lt⟩
    | bad => rw [itemAt, itemAt, entry, found, Option.bind_some, Option.bind_some, stored]

variable {c c' : Config} {id : ℕ} {entries : List Bytes}

theorem move_item (cons : Consistent c) (below : id < c.queue.queueHead.id)
    (move : Move (· < wordSize) (· ≠ []) c c') (stored : c'.queue.Stored id) :
    c.queue.Stored id ∧ itemAt c'.queue.contents id = itemAt c.queue.contents id := by
  have start : Untouched id c.queue.contents c :=
    ⟨⟨cons.own, below, fun _ => rfl⟩, fun _ _ _ _ _ => rfl⟩
  obtain ⟨cons', untouched⟩ := move_untouched c c' ⟨cons, start⟩ move
  have owned : c'.queue.Owned (heldIds c') id := cons'.own.covered id stored
  have entry := untouched.records.entry owned
  refine ⟨?_, itemAt_congr entry (untouched.chunks owned)⟩
  obtain ⟨value, found⟩ := mem_iff_lookup.mp stored
  exact mem_iff_lookup.mpr ⟨value, entry.symm.trans found⟩

theorem change_untouched {image : Image} (c c' : Config) (h : Consistent c ∧ Untouched id image c)
    (change : Change c c') : Consistent c' ∧ Untouched id image c' := by
  obtain ⟨cons, untouched⟩ := h
  cases change with
  | move move => exact move_untouched c c' ⟨cons, untouched⟩ move
  | unseen unseen =>
    refine ⟨Consistent.unseen cons unseen,
      (itemInvariant_records _ _).same unseen.same untouched.records, ?_⟩
    intro owned header stored n inside
    rw [Queue.contents, unseen.journal]
    exact untouched.chunks (owned.imp_left (unseen.same.available id).mp) header stored n inside

theorem changes_item (cons : Consistent c) (below : id < c.queue.queueHead.id)
    (changes : Changes c c') (held : id ∈ heldIds c') :
    itemAt c'.queue.contents id = itemAt c.queue.contents id := by
  have start : Untouched id c.queue.contents c :=
    ⟨⟨cons.own, below, fun _ => rfl⟩, fun _ _ _ _ _ => rfl⟩
  obtain ⟨-, untouched⟩ := changes.invariant change_untouched ⟨cons, start⟩
  exact itemAt_congr (untouched.records.entry (.inr held)) (untouched.chunks (.inr held))

/-- The items of a queue into which `entries` were pushed, in its journal and in the images
that a crash can leave of it. -/
structure Values (entries : List Bytes) (c : Config) : Prop where
  length : entries.length ≤ c.queue.queueHead.id
  below : ∀ m id, (⟨.queue, id⟩ : Key) ∈ c.queue.journal.imageAt m → id < c.queue.queueHead.id
  stored : ∀ m id value, c.queue.Stored id → itemAt (c.queue.journal.imageAt m) id = some value →
    itemAt c.queue.contents id = some value
  known : ∀ m id value, id < entries.length →
    itemAt (c.queue.journal.imageAt m) id = some value → entries[id]? = some value

theorem Values.contents (values : Values entries c) {value : Bytes} (old : id < entries.length)
    (item : itemAt c.queue.contents id = some value) : entries[id]? = some value := by
  refine values.known c.queue.journal.log.length id value old ?_
  rwa [Journal.imageAt_length]

theorem stored_lt_head (own : c.queue.Ownership (heldIds c)) (stored : c.queue.Stored id) :
    id < c.queue.queueHead.id := by
  rcases own.covered id stored with (returned | range) | held
  · exact lt_of_lt_of_le (own.returned_lt id returned) own.tail_le_head
  · exact range.2
  · exact lt_of_lt_of_le (own.held_lt id held) own.tail_le_head

theorem move_values (sound : Sound c) (values : Values entries c)
    (move : Move (· < wordSize) (· ≠ []) c c') : Values entries c' := by
  have cons' := move_consistent c c' sound.cons move
  have head := (itemInvariant_head c.queue.queueHead.id).move c c' (le_refl _) move
  -- an image is one that was there before, or the new contents
  have images : ∀ m, (∃ m', c'.queue.journal.imageAt m = c.queue.journal.imageAt m') ∨
      c'.queue.journal.imageAt m = c'.queue.contents := by
    intro m
    rcases move_journal sound.cons.own.head_type move with same | ⟨entry, written, -, -⟩
    · exact .inl ⟨m, by rw [same]⟩
    · rw [Queue.contents, written]
      rcases Nat.lt_or_ge c.queue.journal.log.length m with new | old
      · exact .inr (Journal.imageAt_write_gt _ _ _ new)
      · exact .inl ⟨m, Journal.imageAt_write_le _ _ _ old⟩
  constructor
  · exact values.length.trans head
  · intro m id mem
    rcases images m with ⟨m', same⟩ | same
    · rw [same] at mem
      exact lt_of_lt_of_le (values.below m' id mem) head
    · rw [same] at mem
      exact stored_lt_head cons'.own mem
  · intro m id value stored item
    rcases images m with ⟨m', same⟩ | same
    · rw [same] at item
      have old := values.below m' id (mem_of_itemAt item)
      obtain ⟨before, kept⟩ := move_item sound.cons old move stored
      rw [kept]
      exact values.stored m' id value before item
    · rwa [same] at item
  · intro m id value old item
    rcases images m with ⟨m', same⟩ | same
    · rw [same] at item
      exact values.known m' id value old item
    · rw [same] at item
      have below := lt_of_lt_of_le old values.length
      obtain ⟨-, kept⟩ := move_item sound.cons below move (mem_of_itemAt item)
      rw [kept] at item
      exact values.contents old item

theorem change_values (c c' : Config) (h : Sound c ∧ Values entries c) (change : Change c c') :
    Sound c' ∧ Values entries c' := by
  refine ⟨change_sound c c' h.1 change, ?_⟩
  cases change with
  | move move => exact move_values h.1 h.2 move
  | @unseen q q' readers writers unseen =>
    obtain ⟨length, below, stored, known⟩ := h.2
    have contents : q'.contents = q.contents := congrArg Journal.contents unseen.journal
    constructor
    · rwa [unseen.head]
    · rwa [unseen.journal, unseen.head]
    · intro m id value there item
      rw [Queue.Stored, contents] at there
      rw [unseen.journal] at item
      rw [contents]
      exact stored m id value there item
    · rwa [unseen.journal]

theorem changes_values (sound : Sound c) (values : Values entries c) (changes : Changes c c') :
    Values entries c' :=
  (changes.invariant change_values ⟨sound, values⟩).2

theorem Values.snoc {value : Bytes} (values : Values entries c)
    (head : c.queue.queueHead.id = entries.length + 1)
    (stored : c.queue.Stored entries.length)
    (item : itemAt c.queue.contents entries.length = some value) :
    Values (entries ++ [value]) c := by
  refine ⟨?_, values.below, values.stored, fun m id other old found => ?_⟩
  · rw [List.length_append, List.length_singleton, head]
  · rw [List.length_append, List.length_singleton] at old
    by_cases last : id = entries.length
    · subst last
      have same := values.stored m _ other stored found
      rw [item] at same
      rw [List.getElem?_concat_length, same]
    · have before : id < entries.length := by omega
      rw [List.getElem?_append_left before]
      exact values.known m id other before found

theorem values_new {entries : List Bytes} {c : Config} {writes : ℕ} {path : Bytes} {q : Queue}
    (values : Values entries c)
    (new : Queue.new (c.queue.journal.imageAt writes) path = some q) :
    Values (entries.take q.queueHead.id) ⟨q, [], []⟩ ∧
      q.queueHead.id ≤ c.queue.queueHead.id := by
  have journal := journal_new new
  have image : ∀ m, q.journal.imageAt m = c.queue.journal.imageAt writes := by
    intro m
    rw [journal, Journal.imageAt_fresh]
  have contents : q.contents = c.queue.journal.imageAt writes := by
    rw [Queue.contents, journal, Journal.contents_fresh]
  have range : ∀ id, (⟨.queue, id⟩ : Key) ∈ c.queue.journal.imageAt writes →
      id < q.queueHead.id := by
    intro id mem
    rcases new_cases new with rec | ⟨empty, -⟩
    · exact (rec.range id (Queue.mem_queueIds.mpr mem)).2
    · exact absurd mem (empty _)
  refine ⟨⟨List.length_take_le _ _, fun m id mem => range id (image m ▸ mem),
    fun m id value _ item => ?_, fun m id value old item => ?_⟩, ?_⟩
  · rw [image] at item
    exact contents ▸ item
  · rw [image] at item
    rw [List.length_take] at old
    rw [List.getElem?_take_of_lt (by omega)]
    exact values.known writes id value (by omega) item
  · rcases new_cases new with rec | ⟨-, blank⟩
    · obtain ⟨last, mem, head⟩ := rec.head_pos
      rw [head]
      exact values.below writes last (Queue.mem_queueIds.mp mem)
    · rw [blank]
      exact Nat.zero_le _

inductive Part (image : Image) (stream : IQStream) (buf : Bytes) (stream' : IQStream) : Prop where
  | item (first : stream.chunkPos = 0) (item : itemAt image stream.id = some buf)
      (tell : stream'.tell = buf.length) (size : stream'.size = buf.length)
  | chunk {value : Bytes} (multi : stream'.header.end_ > 1)
      (item : itemAt image stream.id = some value) (size : stream'.size = value.length)
      (some : buf ≠ []) (rest : value.drop stream.tell = buf ++ value.drop stream'.tell)
      (told : stream'.tell ≤ value.length)

theorem length_item {image : Image} {header : Header} (intact : Intact image)
    (entry : HeaderAt image id header) :
    (chunksOf image header.beg header.end_).length = header.size := by
  rw [length_chunksOf, (intact.filled entry).sum]

theorem part_readChunk {q : Queue} {stream stream' : IQStream} {result buf : Bytes} {ok : Bool}
    (intact : Intact q.contents) (solid : Solid q.contents)
    (entry : HeaderAt q.contents stream.id stream.header)
    (start : stream.header.beg ≤ stream.chunkPos) (unfinished : stream.chunkPos < stream.header.end_)
    (tell : stream.tell =
      ∑ n ∈ Finset.Ico stream.header.beg stream.chunkPos, (chunkAt q.contents n).length)
    (read : stream.readChunk q result ok = (.ok buf, stream')) :
    Part q.contents stream buf stream' := by
  have several := intact.several entry
  rcases readChunk_cases stream q result ok (by omega) with ⟨e, r⟩ | ⟨chunk, found, r⟩
  · rw [r] at read
    cases read
  · rw [r] at read
    obtain ⟨same, rfl⟩ := Prod.mk.inj read
    obtain rfl := Except.ok.inj same
    have here : chunkAt q.contents stream.chunkPos = chunk := by
      rw [chunkAt, found, Option.getD_some]
    have before : (chunksOf q.contents stream.header.beg stream.chunkPos).length = stream.tell := by
      rw [length_chunksOf, tell]
    have split : chunksOf q.contents stream.header.beg stream.header.end_ =
        chunksOf q.contents stream.header.beg stream.chunkPos ++
          (chunk ++ chunksOf q.contents (stream.chunkPos + 1) stream.header.end_) := by
      rw [chunksOf_append _ start (le_of_lt unfinished),
        chunksOf_append _ (Nat.le_succ stream.chunkPos) unfinished, chunksOf_one, here]
    have length := length_item intact entry
    rw [split] at length
    have dropped : (chunksOf q.contents stream.header.beg stream.header.end_).drop
        (stream.tell + chunk.length) =
          chunksOf q.contents (stream.chunkPos + 1) stream.header.end_ := by
      rw [split, ← List.append_assoc]
      refine List.drop_left' ?_
      rw [List.length_append, before]
    refine .chunk (by simp only; omega) (itemAt_header entry) ?_ (solid _ _ found) ?_ ?_
    · rw [split]
      exact length.symm
    · simp only [dropped]
      rw [split]
      exact List.drop_left' before
    · rw [split, List.length_append, List.length_append, before]
      simp only
      omega

theorem part_read {q : Queue} {stream stream' : IQStream} {buf : Bytes} {io : Io}
    (intact : Intact q.contents) (solid : Solid q.contents) (h : Progress q.contents stream)
    (read : stream.read q io = (.ok buf, stream')) : Part q.contents stream buf stream' := by
  unfold IQStream.read at read
  split at read
  · cases read
  case isFalse more =>
    rw [not_or] at more
    split at read
    case isTrue first =>
      have tell := h.tell_zero first
      rcases readEntry_cases stream q (io 0) with
        ⟨e, r⟩ | ⟨value, found, ⟨bad, r⟩ | ⟨bytes, item, r⟩ | ⟨header, isHeader, r⟩⟩
      · rw [r] at read
        cases read
      · rw [r] at read
        cases read
      · rw [r] at read
        simp only [IQStream.readChunk, gt_iff_lt, lt_self_iff_false, if_false] at read
        obtain ⟨same, rfl⟩ := Prod.mk.inj read
        obtain rfl := Except.ok.inj same
        exact .item first (itemAt_item found item) (by simp only; omega) rfl
      · have entry : HeaderAt q.contents stream.id header := ⟨value, found, isHeader⟩
        have several := intact.several entry
        rw [r (by omega)] at read
        have start : stream.tell =
            ∑ n ∈ Finset.Ico header.beg header.beg, (chunkAt q.contents n).length := by
          rw [Finset.Ico_self, Finset.sum_empty, tell]
        rcases part_readChunk intact solid entry (le_refl _) (by simp only; omega) start read with
          ⟨-, item, tell, size⟩ | ⟨multi, item, size, some, rest, told⟩
        · exact .item first item tell size
        · exact .chunk multi item size some rest told
    case isFalse later =>
      cases h with
      | fresh header pos tell => exact absurd pos later
      | single entry item stop pos => omega
      | multi entry start stop tell =>
        exact part_readChunk intact solid entry start (by omega) tell read

end Darner.ItemValues
