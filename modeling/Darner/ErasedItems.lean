import Darner.ItemCodec

/-! What `close(true)` takes away from the journal. The keys it erases are those of the
header that the stream has by then: the one of the item once its entry was fetched, and
before that the default, which has no chunks. After enough bytes have gone, the
stretches of the journal before its first keys are compacted; the end of such a
stretch is the id before the first key, and before the id 0 that is the largest word. -/

namespace Darner.ErasedItems
open OrderedStore LabelledRuns StreamMoves QueuePartition QueueRecovery ChunkLayout
open CrashConsistency StoredItems ChunkedItems ItemCodec

def fetches (j : ℕ) : Process.Event → Bool
  | .act (.iread i io) _ => i = j && io 0
  | _ => false

section Reads

variable {s : IQStream} {q : Queue} {io : Io} {header : Header}

theorem read_unfetched (first : s.chunkPos = 0) (failed : io 0 = false) :
    ∃ e, s.read q io = (.error e, s) := by
  have missing : s.readEntry q false = (.error .ioError, s) := by
    unfold IQStream.readEntry Queue.popRead Queue.get
    cases q.contents.lookup ⟨.queue, s.id⟩ <;> rfl
  rw [IQStream.read, if_pos first, failed, missing]
  split
  · exact ⟨_, rfl⟩
  · exact ⟨_, rfl⟩

theorem header_read_first (isOpen : s.queue.isSome) (stored : HeaderAt q.contents s.id header)
    (multi : header.end_ > 1) (first : s.chunkPos = 0) (chunks : 0 < s.header.end_)
    (fetched : io 0 = true) : (s.read q io).2.header = header := by
  obtain ⟨value, entry, read⟩ := stored
  have going : ¬(s.queue.isNone ∨ s.chunkPos ≥ s.header.end_) := by
    rw [first, Option.isNone_iff_eq_none, not_or, not_le]
    exact ⟨Option.isSome_iff_ne_none.mp isOpen, chunks⟩
  rw [IQStream.read, if_neg going, if_pos first, readEntry_header entry read multi, fetched]
  exact header_readChunk _ _ _ _

theorem header_read_again (isOpen : s.queue.isSome) (stored : HeaderAt q.contents s.id header)
    (multi : header.end_ > 1) (known : s.header = header) : (s.read q io).2.header = header := by
  by_cases first : s.chunkPos = 0
  · cases fetched : io 0 with
    | true =>
      exact header_read_first isOpen stored multi first (by rw [known]; omega) fetched
    | false =>
      obtain ⟨e, same⟩ := read_unfetched (q := q) first fetched
      rw [same]
      exact known
  · rw [IQStream.read, if_neg first]
    split
    · exact known
    · rw [header_readChunk]
      exact known

end Reads

/-- The iqstream at `j` holds the item `id`, whose entry is the one in `image`; it has
the header of the item if some event of `past` fetched it, and has read nothing else. -/
structure Carries (j id : ℕ) (image : Image) (past : List Process.Event) (p : Process) : Prop where
  cons : Consistent (config p)
  records : Records id (image.lookup ⟨.queue, id⟩) p.queue p.held
  stream : ∃ s, p.iqs[j]? = some s ∧ s.queue.isSome ∧ s.id = id ∧
    (((∀ e ∈ past, fetches j e = false ∧ readBy j e = []) ∧ s.header = {} ∧ s.chunkPos = 0) ∨
    (∃ e ∈ past, fetches j e = true) ∧ ∀ header, HeaderAt image id header → s.header = header)

variable {j id : ℕ} {image : Image}

theorem mem_held {p : Process} {s : IQStream} (row : p.iqs[j]? = some s)
    (isOpen : s.queue.isSome) : s.id ∈ p.held := by
  apply List.mem_map_of_mem
  exact List.mem_filter.mpr ⟨List.mem_of_getElem? row, isOpen⟩

theorem Carries.stored {past : List Process.Event} {p : Process} (h : Carries j id image past p)
    (header : Header) : HeaderAt p.queue.contents id header ↔ HeaderAt image id header := by
  obtain ⟨s, row, isOpen, rfl, -⟩ := h.stream
  exact headerAt_congr header (h.records.entry (.inr (mem_held row isOpen)))

theorem step_holds (past : List Process.Event) (p : Process) (e : Process.Event) (p' : Process)
    (keeps : releases j e = false) (h : Carries j id image past p) (step : Process.Step p e p') :
    Carries j id image (past ++ [e]) p' := by
  have records := (itemInvariant_records id (image.lookup ⟨.queue, id⟩)).runs (.single step)
    (by simpa using isAct_of_keeps keeps) h.records
  refine ⟨step_consistent p e p' h.cons step, records, ?_⟩
  obtain ⟨s, row, isOpen, same, state⟩ := h.stream
  rcases iqs_step step keeps row isOpen with ⟨row', none, noRead⟩ | ⟨io, rfl, row'⟩
  · have quiet : fetches j e = false := by
      cases e with
      | crash writes => rfl
      | act act outcome =>
        cases act with
        | iread i io =>
          by_cases here : i = j
          · rw [here] at noRead
            exact absurd rfl (noRead io outcome)
          · simp [fetches, here]
        | _ => rfl
    refine ⟨s, row', isOpen, same, ?_⟩
    rcases state with ⟨all, header, pos⟩ | ⟨⟨e', mem, fetched⟩, known⟩
    · refine .inl ⟨?_, header, pos⟩
      simpa [or_imp, forall_and, quiet, none] using all
    · exact .inr ⟨⟨e', List.mem_append_left _ mem, fetched⟩, known⟩
  · have isOpen' : (s.read p.queue io).2.queue.isSome := by rw [IQStream.queue_read]; exact isOpen
    refine ⟨_, row', isOpen', by rw [IQStream.id_read]; exact same, ?_⟩
    have learns : ∀ header, HeaderAt image id header →
        HeaderAt p.queue.contents s.id header ∧ header.end_ > 1 := by
      intro header stored
      have here := (h.stored header).mpr stored
      have several := h.cons.layout.intact.several here
      rw [same]
      exact ⟨here, by omega⟩
    rcases state with ⟨all, header, pos⟩ | ⟨⟨e', mem, fetched⟩, known⟩
    · cases fetched : io 0 with
      | true =>
        refine .inr ⟨⟨_, List.mem_append_right _ List.mem_cons_self, by simp [fetches, fetched]⟩, ?_⟩
        intro stored at'
        obtain ⟨here, multi⟩ := learns stored at'
        exact header_read_first isOpen here multi pos (by simp [header]) fetched
      | false =>
        obtain ⟨error, unread⟩ := read_unfetched (q := p.queue) pos fetched
        rw [unread]
        refine .inl ⟨?_, header, pos⟩
        simpa [or_imp, forall_and, fetches, fetched, readBy, Outcome.ofRead] using all
    · refine .inr ⟨⟨e', List.mem_append_left _ mem, fetched⟩, ?_⟩
      intro stored at'
      obtain ⟨here, multi⟩ := learns stored at'
      exact header_read_again isOpen here multi (known stored at')

theorem holds_opened {path : Bytes} {p p' : Process} {r : IQStream}
    (reach : Reachable Process.Step (Process.created path) p)
    (opened : Process.Step p (.act (.iopen j) (.opened true)) p') (row : p'.iqs[j]? = some r) :
    Carries j r.id p.queue.contents [] p' := by
  obtain ⟨id, q, pop, rfl, row'⟩ := popBegin_of_iopen opened
  rw [row'] at row
  obtain rfl := Option.some.inj row
  have own := ownership_of_reachable (reach.next opened)
  have below : id < p'.queue.queueTail.id := own.held_lt id (mem_held row' rfl)
  have order := own.tail_le_head
  refine ⟨reachable_consistent (reach.next opened), ⟨own, below.trans_le order, ?_⟩, ?_⟩
  · intro _
    rw [Queue.contents_popBegin pop]
  · exact ⟨_, row', rfl, rfl, .inl ⟨by simp, rfl, rfl⟩⟩

/-- A journal that has lost an item, its chunks with it, and nothing else. -/
structure Erased (id : ℕ) (before after : Image) : Prop where
  entry : (⟨.queue, id⟩ : Key) ∉ after
  chunks : ∀ header, HeaderAt before id header → ∀ n ∈ header.range, (⟨.chunk, n⟩ : Key) ∉ after
  others : ∀ key, key ≠ ⟨.queue, id⟩ →
    (∀ header, HeaderAt before id header → ∀ n ∈ header.range, key ≠ ⟨.chunk, n⟩) →
    after.lookup key = before.lookup key

theorem popEnd_of_iclose {p p' : Process} {s : IQStream} {erase ok : Bool}
    (step : Process.Step p (.act (.iclose j erase ok) .done) p') (row : p.iqs[j]? = some s)
    (isOpen : s.queue.isSome) : p.queue.popEnd erase s.id s.header ok = .ok p'.queue := by
  cases step with
  | act run small =>
    simp only [Process.exec, Process.onIqstream, row] at run
    cases closed : s.close p.queue erase ok with
    | error e =>
      rw [closed] at run
      cases run
    | ok pair =>
      rw [closed] at run
      rcases IQStream.close_ok closed with ⟨none, -, -⟩ | ⟨-, -, popped⟩
      · rw [none] at isOpen
        cases isOpen
      · rw [popped, ← (Prod.mk.inj run).1]
        rfl

theorem lookup_popEnd {q q' : Queue} {header : Header} {ok : Bool}
    (pop : q.popEnd true id header ok = .ok q') (key : Key) :
    q'.contents.lookup key =
      if key ∈ Queue.itemKeys id header then none else q.contents.lookup key := by
  obtain ⟨bytes, ranges, rfl⟩ := Queue.popEnd_erase pop
  exact q.lookup_erased id header key

theorem mem_itemKeys_header {image : Image} {chunksHead : ℕ} {readers : List IQStream}
    {writers : List OQStream} {header : Header} (lay : Layout image chunksHead readers writers)
    (stored : HeaderAt image id header) (key : Key) :
    key ∈ Queue.itemKeys id header ↔ key = ⟨.queue, id⟩ ∨ ∃ n ∈ header.range, key = ⟨.chunk, n⟩ := by
  have several := lay.intact.several stored
  rcases key_cases key with ⟨n, rfl⟩ | ⟨n, rfl⟩
  · simp [Queue.queue_mem_itemKeys]
  · rw [Queue.chunk_mem_itemKeys, lay.header_chunkIds stored]
    have multi : header.end_ > 1 := by omega
    simp [multi]

theorem erased_of_keys {before after : Image} {keys : List Key}
    (look : ∀ key, after.lookup key = if key ∈ keys then none else before.lookup key)
    (right : ∀ key, key ∈ keys ↔ key = ⟨.queue, id⟩ ∨
      ∃ header, HeaderAt before id header ∧ ∃ n ∈ header.range, key = ⟨.chunk, n⟩) :
    Erased id before after := by
  have gone : ∀ key ∈ keys, key ∉ after := by
    intro key mem
    rw [mem_iff_lookup, look, if_pos mem]
    simp
  refine ⟨?_, ?_, ?_⟩
  · exact gone _ ((right _).mpr (.inl rfl))
  · intro header stored n inside
    exact gone _ ((right _).mpr (.inr ⟨header, stored, n, inside, rfl⟩))
  · intro key entry chunks
    rw [look, if_neg]
    intro mem
    rcases (right key).mp mem with same | ⟨header, stored, n, inside, same⟩
    · exact entry same
    · exact chunks header stored n inside same

/-- In any run, a close with erasure takes the whole item and nothing else, unless it
is a multi-chunk item of which no read has fetched the entry; a read that got a chunk
has. -/
theorem close_erases_iff {path : Bytes} {p₀ p₁ p₂ p₃ : Process} {r : IQStream}
    {es : List Process.Event} {ok : Bool}
    (reach : Reachable Process.Step (Process.created path) p₀)
    (opened : Process.Step p₀ (.act (.iopen j) (.opened true)) p₁) (row : p₁.iqs[j]? = some r)
    (run : Runs Process.Step p₁ es p₂) (keeps : ∀ e ∈ es, releases j e = false)
    (close : Process.Step p₂ (.act (.iclose j true ok) .done) p₃) :
    (Erased r.id p₂.queue.contents p₃.queue.contents ↔
      ∀ header, HeaderAt p₀.queue.contents r.id header → ∃ e ∈ es, fetches j e = true) ∧
    (es.flatMap (readBy j) ≠ [] → ∃ e ∈ es, fetches j e = true) := by
  have h := run.preserves_history step_holds [] keeps (holds_opened reach opened row)
  rw [List.nil_append, List.flatMap_singleton'] at h
  have layout := h.cons.layout
  obtain ⟨s, row', isOpen, same, state⟩ := h.stream
  have pop := popEnd_of_iclose close row' isOpen
  rw [same] at pop
  have look := lookup_popEnd pop
  have reader : s ∈ p₂.iqs.filterMap reader :=
    List.mem_filterMap.mpr ⟨s, List.mem_of_getElem? row', reader_open isOpen⟩
  refine ⟨⟨?_, ?_⟩, ?_⟩
  · intro erased header stored
    rcases state with ⟨-, none, -⟩ | ⟨fetched, -⟩
    · -- the stream has the default header, so the first chunk is still there
      have here := (h.stored header).mpr stored
      have several := layout.intact.several here
      have first := (layout.intact.filled here).present header.beg (le_refl _) (by omega)
      have left : (⟨.chunk, header.beg⟩ : Key) ∈ p₃.queue.contents := by
        rw [mem_iff_lookup, look, if_neg (by simp [Queue.chunk_mem_itemKeys, none]), ← mem_iff_lookup]
        exact first
      have inside : header.beg ∈ header.range := Finset.mem_Ico.mpr ⟨le_refl _, by omega⟩
      exact absurd left (erased.chunks header here _ inside)
    · exact fetched
  · intro fetched
    apply erased_of_keys look
    intro key
    by_cases multi : ∃ header, HeaderAt p₀.queue.contents r.id header
    · obtain ⟨header, stored⟩ := multi
      have known : s.header = header := by
        rcases state with ⟨unfetched, -⟩ | ⟨-, known⟩
        · obtain ⟨e, mem, yes⟩ := fetched header stored
          rw [(unfetched e mem).1] at yes
          cases yes
        · exact known header stored
      have here := (h.stored header).mpr stored
      rw [known, mem_itemKeys_header layout here]
      refine or_congr_right ⟨fun inside => ⟨header, here, inside⟩, ?_⟩
      rintro ⟨header', here', inside⟩
      rw [here.unique here']
      exact inside
    · have single : s.header.end_ ≤ 1 := by
        by_contra several
        have stored := layout.known s reader (by omega)
        rw [same] at stored
        exact multi ⟨_, (h.stored _).mp stored⟩
      have only : Queue.itemKeys r.id s.header = [⟨.queue, r.id⟩] := by
        simp [Queue.itemKeys, single]
      rw [only, List.mem_singleton]
      refine ⟨.inl, ?_⟩
      rintro (entry | ⟨header, here, -⟩)
      · exact entry
      · exact absurd ⟨header, (h.stored header).mp here⟩ multi
  · intro reads
    rcases state with ⟨none, -⟩ | ⟨fetched, -⟩
    · exact absurd (List.flatMap_eq_nil_iff.mpr fun e mem => (none e mem).2) reads
    · exact fetched

def pushAndClose : List Act :=
  [.newOqstream, .newIqstream, .oopen 0 2 false, .owrite 0 [97] 0 fun _ => true,
    .owrite 0 [98, 99] 0 fun _ => true, .iopen 0, .iread 0 fun _ => true, .iclose 0 true true]

def popping (n : ℕ) : Process := (Process.created [113]).run (pushAndClose.take n)

theorem close_erases_after_read :
    Erased 0 (popping 7).queue.contents (popping 8).queue.contents := by
  have reach : Reachable Process.Step (Process.created [113]) (popping 5) :=
    ⟨_, Process.runs_events _ _ (by decide)⟩
  have opened : Process.Step (popping 5) (.act (.iopen 0) (.opened true)) (popping 6) :=
    .act rfl (by decide)
  have run : Runs Process.Step (popping 6) ((popping 6).events [.iread 0 fun _ => true]) (popping 7) :=
    Process.runs_events _ _ (by decide)
  have close : Process.Step (popping 7) (.act (.iclose 0 true true) .done) (popping 8) :=
    .act rfl (by decide)
  obtain ⟨erases, -⟩ := close_erases_iff reach opened rfl run (by decide) close
  exact erases.mpr fun _ _ => ⟨_, List.mem_cons_self, rfl⟩

/-- Closed before its first read, a multi-chunk item leaves its chunks behind. -/
theorem close_unread_leaves_chunks :
    HeaderAt (popping 6).queue.contents 0 ⟨0, 2, 3⟩ ∧
    (⟨.chunk, 0⟩ : Key) ∈ ((popping 6).exec (.iclose 0 true true)).1.queue.contents ∧
    (⟨.chunk, 1⟩ : Key) ∈ ((popping 6).exec (.iclose 0 true true)).1.queue.contents ∧
    ¬Erased 0 (popping 6).queue.contents
      ((popping 6).exec (.iclose 0 true true)).1.queue.contents := by
  have stored : HeaderAt (popping 6).queue.contents 0 ⟨0, 2, 3⟩ :=
    ⟨Header.str ⟨0, 2, 3⟩, by decide, by decide⟩
  have left : (⟨.chunk, 0⟩ : Key) ∈ ((popping 6).exec (.iclose 0 true true)).1.queue.contents := by
    decide
  refine ⟨stored, left, by decide, fun erased => ?_⟩
  exact erased.chunks ⟨0, 2, 3⟩ stored 0 (by decide) left

/-- The ranges that `compact` passes to `CompactRange` on a journal. -/
def compactRanges (image : Image) : List (Key × Key) :=
  match seek image ⟨.queue, 0⟩ with
  | none => []
  | some kq => (⟨.queue, 0⟩, Queue.predecessor kq) ::
    match seek image ⟨.chunk, 0⟩ with
    | none => []
    | some kc => [(⟨.chunk, 0⟩, Queue.predecessor kc)]

theorem compacted_compact (q : Queue) :
    q.compact.compacted = q.compacted ++ compactRanges q.contents := by
  unfold Queue.compact compactRanges
  cases seek q.contents ⟨.queue, 0⟩ with
  | none => simp
  | some kq =>
    cases seek q.contents ⟨.chunk, 0⟩ with
    | none => rfl
    | some kc => simp

theorem compacted_popEnd {q q' : Queue} {header : Header} {ok : Bool}
    (pop : q.popEnd true id header ok = .ok q')
    (trigger : q.bytesEvicted + header.size > 33554432) :
    q'.compacted = q.compacted ++ compactRanges q'.contents := by
  cases ok with
  | false => cases pop
  | true =>
    have compacted := compacted_compact
      { q with journal := q.journal.write ⟨(Queue.itemKeys id header).map .delete, false⟩
               bytesEvicted := q.bytesEvicted + header.size }
    obtain ⟨ranges, same⟩ := Queue.compact_eq
      { q with journal := q.journal.write ⟨(Queue.itemKeys id header).map .delete, false⟩
               bytesEvicted := q.bytesEvicted + header.size }
    rw [same] at compacted
    rw [← Except.ok.inj pop]
    simp only [Queue.evict, if_pos trigger, same]
    exact compacted

def Clear (image : Image) (ranges : List (Key × Key)) : Prop :=
  ∀ range ∈ ranges, ∀ key ∈ image, ¬(range.1 ≤ key ∧ key ≤ range.2)

theorem predecessor_lt {key : Key} (pos : key.id ≠ 0) (small : key.id < wordSize) :
    Queue.predecessor key < key := by
  have before : (key.id + wordSize - 1) % wordSize = key.id - 1 := by
    have split : key.id + wordSize - 1 = (key.id - 1) + wordSize := by omega
    rw [split, Nat.add_mod_right, Nat.mod_eq_of_lt (by omega)]
  rw [← not_le, Key.le_iff, Queue.predecessor, before]
  simp only
  omega

theorem le_predecessor_zero (type : KeyType) :
    (⟨type, 0⟩ : Key) ≤ Queue.predecessor ⟨type, 0⟩ := by
  rw [Key.le_iff]
  exact .inr ⟨rfl, Nat.zero_le _⟩

theorem queue_zero_le (key : Key) : (⟨.queue, 0⟩ : Key) ≤ key := by
  rcases key_cases key with ⟨n, rfl⟩ | ⟨n, rfl⟩
  · simp
  · simp

theorem compactRanges_ne_nil {key : Key} (mem : key ∈ image) : compactRanges image ≠ [] := by
  unfold compactRanges
  split
  case h_1 none => exact absurd (queue_zero_le key) (not_le.mpr (seek_eq_none.mp none key mem))
  case h_2 => exact List.cons_ne_nil _ _

theorem clear_compactRanges_iff (small : ∀ key ∈ image, key.id < wordSize) :
    Clear image (compactRanges image) ↔ ∀ type, (⟨type, 0⟩ : Key) ∉ image := by
  constructor
  · intro clear type mem
    obtain ⟨kq, first⟩ : ∃ kq, seek image ⟨.queue, 0⟩ = some kq := by
      cases first : seek image ⟨.queue, 0⟩ with
      | none => exact absurd (queue_zero_le _) (not_le.mpr (seek_eq_none.mp first _ mem))
      | some kq => exact ⟨kq, rfl⟩
    have itself : seek image ⟨type, 0⟩ = some ⟨type, 0⟩ :=
      seek_eq_some.mpr ⟨mem, le_refl _, fun other _ le => le⟩
    refine clear (⟨type, 0⟩, Queue.predecessor ⟨type, 0⟩) ?_ _ mem ⟨le_refl _, le_predecessor_zero _⟩
    cases type with
    | queue => simp [compactRanges, itself]
    | chunk => simp [compactRanges, first, itself]
  · intro none range mem key stored
    -- a range ends before the first key that is not before its start
    have before : ∀ start first, seek image start = some first →
        ¬(start ≤ key ∧ key ≤ Queue.predecessor first) := by
      rintro start ⟨type, n⟩ found ⟨above, below⟩
      obtain ⟨there, -, least⟩ := seek_eq_some.mp found
      have pos : n ≠ 0 := by
        rintro rfl
        exact none type there
      have less : Queue.predecessor ⟨type, n⟩ < ⟨type, n⟩ := predecessor_lt pos (small _ there)
      exact absurd (least key stored above) (not_le.mpr (below.trans_lt less))
    unfold compactRanges at mem
    split at mem
    · cases mem
    case h_2 kq first =>
      rcases List.mem_cons.mp mem with rfl | mem
      · exact before _ _ first
      · split at mem
        · cases mem
        case h_2 kc found =>
          obtain rfl := List.mem_singleton.mp mem
          exact before _ _ found

def Below (c : Config) : Prop :=
  ∀ n id, (⟨.queue, id⟩ : Key) ∈ c.queue.journal.imageAt n → id < c.queue.queueHead.id

theorem below_contents {c : Config} (cons : Consistent c) (id : ℕ)
    (stored : (⟨.queue, id⟩ : Key) ∈ c.queue.contents) : id < c.queue.queueHead.id := by
  have order := cons.own.tail_le_head
  rcases cons.own.covered id stored with (returned | ⟨-, less⟩) | held
  · exact (cons.own.returned_lt id returned).trans_le order
  · exact less
  · exact (cons.own.held_lt id held).trans_le order

theorem move_below {solid : Bytes → Prop} (c c' : Config) (h : Consistent c ∧ Below c)
    (move : Move (· < wordSize) solid c c') : Consistent c' ∧ Below c' := by
  obtain ⟨cons, below⟩ := h
  have cons' := move_consistent c c' cons move
  have grows : c.queue.queueHead.id ≤ c'.queue.queueHead.id :=
    (itemInvariant_head c.queue.queueHead.id).move c c' (le_refl _) move
  have old : ∀ n id, (⟨.queue, id⟩ : Key) ∈ c.queue.journal.imageAt n →
      id < c'.queue.queueHead.id := fun n id mem => (below n id mem).trans_le grows
  refine ⟨cons', fun n => ?_⟩
  rcases move_journal cons.own.head_type move with same | ⟨entry, write, -⟩
  · rw [same]
    exact old n
  · have last := below_contents cons'
    rw [Queue.contents] at last
    rw [write] at last ⊢
    exact Journal.images_write
      (P := fun image => ∀ id, (⟨.queue, id⟩ : Key) ∈ image → id < c'.queue.queueHead.id) old last n

theorem step_below (p : Process) (e : Process.Event) (p' : Process)
    (h : Consistent (config p) ∧ Below (config p) ∧ p.queue.queueHead.id < wordSize)
    (step : Process.Step p e p') :
    Consistent (config p') ∧ Below (config p') ∧ p'.queue.queueHead.id < wordSize := by
  obtain ⟨cons, below, small⟩ := h
  have cons' := step_consistent p e p' cons step
  cases step with
  | @act _ act outcome run fits =>
    have next : p' = (p.exec act).1 := by rw [run]
    rw [next] at fits ⊢
    have moves : Moves (· < wordSize) (fun _ => True) (config p) (config (p.exec act).1) :=
      exec_moves p act ⟨fits.chunks, fits.sizes⟩
    obtain ⟨cons', below'⟩ := moves.invariant move_below ⟨cons, below⟩
    exact ⟨cons', below', fits.head⟩
  | @crash _ writes reopen fresh =>
    have image : p'.queue.journal = ⟨p.queue.journal.imageAt writes, []⟩ ∧
        p'.queue.queueHead.id < wordSize := by
      rcases reopen with ⟨id, mem⟩ | empty
      · obtain ⟨q, hq, rec⟩ := new_queue p.queue.path mem
        simp only [Process.start, hq, Option.map_some, Option.some.injEq] at fresh
        rw [← fresh]
        obtain ⟨last, stored, head⟩ := rec.head_pos
        have less : last < p.queue.queueHead.id :=
          below writes last (by simpa [config] using stored)
        exact ⟨rec.journal, by rw [head]; omega⟩
      · simp only [Process.start, new_empty _ empty, Option.map_some, Option.some.injEq] at fresh
        rw [← fresh]
        exact ⟨rfl, Nat.two_pow_pos 64⟩
    refine ⟨cons', fun n id mem => ?_, image.2⟩
    apply below_contents cons'
    have same : (config p').queue.journal = ⟨p.queue.journal.imageAt writes, []⟩ := image.1
    rw [same, Journal.imageAt_fresh] at mem
    rw [Queue.contents, same, Journal.contents_fresh]
    exact mem

theorem reachable_words {path : Bytes} {p : Process}
    (reach : Reachable Process.Step (Process.created path) p) (key : Key)
    (stored : key ∈ p.queue.contents) : key.id < wordSize := by
  have init : Consistent (config (Process.created path)) ∧ Below (config (Process.created path)) ∧
      (Process.created path).queue.queueHead.id < wordSize := by
    refine ⟨reachable_consistent .refl, fun n id mem => ?_, Nat.two_pow_pos 64⟩
    rw [config, Process.created, Queue.blank, Journal.imageAt_fresh] at mem
    exact absurd mem Finmap.notMem_empty
  obtain ⟨cons, -, small⟩ := reach.invariant (P := fun p => Consistent (config p) ∧
    Below (config p) ∧ p.queue.queueHead.id < wordSize) init step_below
  rcases key_cases key with ⟨n, rfl⟩ | ⟨n, rfl⟩
  · exact (below_contents cons n stored).trans small
  · exact (cons.layout.below n stored).trans cons.layout.small

/-- In any reachable state, a close over the threshold compacts no key that is still in
the journal, if and only if no key with the id 0 stays behind. -/
theorem compaction_clear_iff {path : Bytes} {p p' : Process} {s : IQStream} {ok : Bool}
    (reach : Reachable Process.Step (Process.created path) p) (row : p.iqs[j]? = some s)
    (isOpen : s.queue.isSome) (close : Process.Step p (.act (.iclose j true ok) .done) p')
    (trigger : p.queue.bytesEvicted + s.header.size > 33554432) :
    (∀ range ∈ p'.queue.compacted.drop p.queue.compacted.length, ∀ key ∈ p'.queue.contents,
      ¬(range.1 ≤ key ∧ key ≤ range.2)) ↔
    ∀ type, (⟨type, 0⟩ : Key) ∈ p.queue.contents →
      (⟨type, 0⟩ : Key) ∈ Queue.itemKeys s.id s.header := by
  have pop := popEnd_of_iclose close row isOpen
  rw [compacted_popEnd pop trigger, List.drop_left]
  refine (clear_compactRanges_iff (reachable_words (reach.next close))).trans ?_
  refine forall_congr' fun type => ?_
  rw [mem_iff_lookup, mem_iff_lookup, lookup_popEnd pop]
  by_cases mem : (⟨type, 0⟩ : Key) ∈ Queue.itemKeys s.id s.header
  · simp [mem]
  · simp [mem]

theorem exec_iread_item {p : Process} {s : IQStream} {value bytes : Bytes}
    (row : p.iqs[j]? = some s)
    (isOpen : s.queue.isSome) (header : s.header = {}) (pos : s.chunkPos = 0)
    (entry : p.queue.contents.lookup ⟨.queue, s.id⟩ = some value)
    (plain : Stored.ofValue value = .item bytes) :
    p.exec (.iread j fun _ => true) =
      (p.setIqstream j { s with header := { size := bytes.length }, chunkPos := 1,
                                tell := s.tell + bytes.length } p.queue, .chunk bytes) := by
  have going : ¬(s.queue.isNone ∨ s.chunkPos ≥ s.header.end_) := by
    rw [pos, header, Option.isNone_iff_eq_none, not_or, not_le]
    exact ⟨Option.isSome_iff_ne_none.mp isOpen, by decide⟩
  rw [exec_iread _ row, IQStream.read, if_neg going, if_pos pos, IQStream.readEntry,
    popRead_item entry plain]
  simp [IQStream.readChunk, pos, Outcome.ofRead]

structure PushReady (p : Process) : Prop where
  writer : ∃ last, p.oqs = [{ queue := some 0, id := last }]
  reader : p.iqs[1]? = some ({} : IQStream)
  returned : p.queue.returned = ∅
  empty : p.queue.queueTail = p.queue.queueHead
  words : p.queue.queueHead.id + 1 < wordSize

theorem PushReady.popBegin {p : Process} (h : PushReady p) (value : Bytes) :
    (p.queue.pushed value false).wakeUp.popBegin =
      some (p.queue.queueHead.id, (p.queue.pushed value false).wakeUp.poppedTail) := by
  have same := Queue.sameItems_wakeUp (p.queue.pushed value false)
  have none : least (p.queue.pushed value false).wakeUp.returned = none := by
    rw [same.returned]
    exact least_eq_none.mpr h.returned
  have tail : (p.queue.pushed value false).wakeUp.queueTail.id = p.queue.queueHead.id := by
    rw [same.tail]
    exact congrArg Key.id h.empty
  have head : (p.queue.pushed value false).wakeUp.queueHead.id = p.queue.queueHead.id + 1 := by
    rw [same.head]
    rfl
  unfold Queue.popBegin
  simp [none, tail, head, Queue.poppedTail]

theorem PushReady.pushPopRead {path : Bytes} {p : Process} (h : PushReady p) (item : Bytes)
    (reach : Reachable Process.Step (Process.created path) p) (long : 1 < item.length)
    (short : item.length < wordSize) :
    ∃ p', Reachable Process.Step (Process.created path) p' ∧ p'.Fits ∧
      p'.iqs[1]? = some
        { queue := some 0, id := p.queue.queueHead.id, header := { size := item.length },
          chunkPos := 1, tell := 0 + item.length } ∧
      p'.queue = (p.queue.pushed (escape item 0) false).wakeUp.poppedTail := by
  obtain ⟨q, iqs, oqs⟩ := p
  have own : q.Ownership _ := (reachable_consistent reach).own
  have chunks : q.chunksHead.id < wordSize := (reachable_consistent reach).layout.small
  have pop := h.popBegin (escape item 0)
  obtain ⟨⟨last, rfl⟩, row, -, -, words⟩ := h
  simp only at row words pop
  have there : 1 < iqs.length := (List.getElem?_eq_some_iff.mp row).1
  let written : OQStream :=
    { id := q.queueHead.id, header := { size := 0 + item.length }, chunkPos := 1 }
  have fits : ∀ iqs' q', q'.queueHead = (q.pushed (escape item 0) false).queueHead →
      q'.chunksHead = q.chunksHead → (⟨q', iqs', [written]⟩ : Process).Fits := by
    intro iqs' q' head next
    refine ⟨?_, ?_, ?_⟩
    · simp only [head]
      exact words
    · simp only [next]
      exact chunks
    · intro s mem
      obtain rfl := List.mem_singleton.mp mem
      simpa [written] using short
  have same := Queue.sameItems_wakeUp (q.pushed (escape item 0) false)
  have push : Process.Step ⟨q, iqs, [{ queue := some 0, id := last }]⟩
      (.act (.owrite 0 item 0 fun _ => true) .done)
      ⟨(q.pushed (escape item 0) false).wakeUp, iqs, [written]⟩ :=
    .act rfl (fits _ _ same.head (chunksHead_wakeUp _))
  let opened : IQStream := { queue := some 0, id := q.queueHead.id }
  have opening : Process.Step ⟨(q.pushed (escape item 0) false).wakeUp, iqs, [written]⟩
      (.act (.iopen 1) (.opened true))
      ⟨(q.pushed (escape item 0) false).wakeUp.poppedTail, iqs.set 1 opened, [written]⟩ := by
    refine .act ?_ (fits _ _ same.head (chunksHead_wakeUp _))
    simp [Process.exec, Process.onIqstream, row, IQStream.open_, pop, Process.setIqstream,
      Outcome.ofOpen, Process.address, opened]
  have entry : (q.pushed (escape item 0) false).wakeUp.poppedTail.contents.lookup
      ⟨.queue, q.queueHead.id⟩ = some (escape item 0) := by
    change (q.pushed (escape item 0) false).wakeUp.contents.lookup _ = _
    rw [contents_pushed own.head_type, lookup_insert_eq, if_pos rfl]
  have plain : Stored.ofValue (escape item 0) = .item item := by
    rw [ofValue_escape_eq, if_neg]
    · rintro rfl
      simp at long
    · rintro rfl
      simp at long
  have read := exec_iread_item (p := ⟨(q.pushed (escape item 0) false).wakeUp.poppedTail,
    iqs.set 1 opened, [written]⟩) (j := 1) (s := opened) (by simp [there]) rfl rfl rfl entry plain
  refine ⟨_, ((reach.next push).next opening).next (.act read ?_), ?_, ?_, rfl⟩
  · exact fits _ _ same.head (chunksHead_wakeUp _)
  · exact fits _ _ same.head (chunksHead_wakeUp _)
  · simp [Process.setIqstream, there, opened]

theorem exists_close {p : Process} {s : IQStream} (row : p.iqs[j]? = some s) (isOpen : s.queue.isSome)
    (fits : p.Fits) : ∃ p', Process.Step p (.act (.iclose j true true) .done) p' := by
  obtain ⟨q, pop⟩ : ∃ q, p.queue.popEnd true s.id s.header true = .ok q := ⟨_, rfl⟩
  have notNone : s.queue.isNone = false := by
    cases queue : s.queue with
    | none => simp [queue] at isOpen
    | some address => rfl
  have close : s.close p.queue true true = .ok ({ s with queue := none }, q) := by
    simp [IQStream.close, notNone, pop]
  refine ⟨p.setIqstream j { s with queue := none } q, .act ?_ ?_⟩
  · simp only [Process.exec, Process.onIqstream, row, close]
  · obtain ⟨bytes, ranges, rfl⟩ := Queue.popEnd_erase pop
    exact ⟨fits.head, fits.chunks, fits.sizes⟩

theorem mem_popped_pushed {q : Queue} {value : Bytes} {key : Key} (other : key ≠ q.queueHead) :
    key ∈ (q.pushed value false).wakeUp.poppedTail.contents ↔ key ∈ q.contents := by
  change key ∈ (q.pushed value false).wakeUp.contents ↔ _
  rw [contents_wakeUp, mem_iff_lookup, Queue.lookup_pushed, if_neg other, ← mem_iff_lookup]

def bigItem : Bytes := List.replicate 33554433 7

theorem length_bigItem : bigItem.length = 33554433 := List.length_replicate

def readySecond : Process :=
  (Process.created [113]).run [.newOqstream, .newIqstream, .newIqstream, .oopen 0 1 false,
    .owrite 0 [7] 0 fun _ => true, .iopen 0, .oopen 0 1 false]

def readyThird : Process :=
  (Process.created [113]).run [.newOqstream, .newIqstream, .newIqstream, .oopen 0 1 false,
    .owrite 0 [7] 0 fun _ => true, .iopen 0, .iclose 0 true true, .oopen 0 1 false,
    .owrite 0 [8] 0 fun _ => true, .iopen 0, .oopen 0 1 false]

theorem compaction_clear_first : ∃ p p' s,
    Reachable Process.Step (Process.created [113]) p ∧ p.iqs[1]? = some s ∧
    Process.Step p (.act (.iclose 1 true true) .done) p' ∧
    p.queue.bytesEvicted + s.header.size > 33554432 ∧
    p'.queue.compacted.drop p.queue.compacted.length ≠ [] ∧
    ∀ range ∈ p'.queue.compacted.drop p.queue.compacted.length, ∀ key ∈ p'.queue.contents,
      ¬(range.1 ≤ key ∧ key ≤ range.2) := by
  have start : Reachable Process.Step (Process.created [113]) readyThird :=
    ⟨_, Process.runs_events _ _ (by decide)⟩
  have ready : PushReady readyThird := ⟨⟨1, rfl⟩, rfl, rfl, rfl, by decide⟩
  have length := length_bigItem
  obtain ⟨p, reach, fits, row, queue⟩ := ready.pushPopRead bigItem start (by omega)
    (by rw [length]; decide)
  obtain ⟨p', close⟩ := exists_close row rfl fits
  have trigger : p.queue.bytesEvicted + bigItem.length > 33554432 := by omega
  have pop := popEnd_of_iclose close row rfl
  have others : ∀ key, key ≠ ⟨.queue, 2⟩ →
      (key ∈ p.queue.contents ↔ key ∈ readyThird.queue.contents) := fun key other => by
    rw [queue]
    exact mem_popped_pushed other
  refine ⟨p, p', _, reach, row, close, trigger, ?_, ?_⟩
  · -- the second item is still there, so the ranges end before it
    have stays : (⟨.queue, 1⟩ : Key) ∈ p'.queue.contents := by
      rw [mem_iff_lookup, lookup_popEnd pop, if_neg, ← mem_iff_lookup, others _ (by decide)]
      · decide
      · rw [Queue.queue_mem_itemKeys]
        decide
    rw [compacted_popEnd pop trigger, List.drop_left]
    exact compactRanges_ne_nil stays
  · refine (compaction_clear_iff reach row rfl close trigger).mpr fun type mem => ?_
    rw [others _ (by cases type <;> decide)] at mem
    exact absurd mem (by cases type <;> decide)

/-- While the first item of the queue is held, the close of the second compacts over it. -/
theorem compaction_covers_held : ∃ p p' s,
    Reachable Process.Step (Process.created [113]) p ∧ p.iqs[1]? = some s ∧
    Process.Step p (.act (.iclose 1 true true) .done) p' ∧
    p.queue.bytesEvicted + s.header.size > 33554432 ∧
    ¬∀ range ∈ p'.queue.compacted.drop p.queue.compacted.length, ∀ key ∈ p'.queue.contents,
      ¬(range.1 ≤ key ∧ key ≤ range.2) := by
  have start : Reachable Process.Step (Process.created [113]) readySecond :=
    ⟨_, Process.runs_events _ _ (by decide)⟩
  have ready : PushReady readySecond := ⟨⟨0, rfl⟩, rfl, rfl, rfl, by decide⟩
  have length := length_bigItem
  obtain ⟨p, reach, fits, row, queue⟩ := ready.pushPopRead bigItem start (by omega)
    (by rw [length]; decide)
  obtain ⟨p', close⟩ := exists_close row rfl fits
  have trigger : p.queue.bytesEvicted + bigItem.length > 33554432 := by omega
  refine ⟨p, p', _, reach, row, close, trigger, fun clear => ?_⟩
  have pop := popEnd_of_iclose close row rfl
  rw [compacted_popEnd pop trigger, List.drop_left] at clear
  apply (clear_compactRanges_iff (reachable_words (reach.next close))).mp clear .queue
  have before : (⟨.queue, 0⟩ : Key) ∈ p.queue.contents := by
    rw [queue, mem_popped_pushed (by decide)]
    decide
  rw [mem_iff_lookup, lookup_popEnd pop, if_neg, ← mem_iff_lookup]
  · exact before
  · rw [Queue.queue_mem_itemKeys]
    decide

end Darner.ErasedItems
