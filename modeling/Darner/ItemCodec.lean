import Darner.ChunkedItems

/-! The value space that items and headers share. An item is stored as it is, or with
its closing `0` doubled; a header closes with `1, 0`. The reader tells them apart by
the last two bytes, and looks only when there are more than two: that guard is right
for headers and for every item but the single byte `0`, which is stored as `0, 0` and
read back so. -/

namespace Darner.ItemCodec
open OrderedStore LabelledRuns StreamMoves QueuePartition ChunkLayout CrashConsistency StoredItems
  ChunkedItems

theorem lastByte_snoc (init : Bytes) (b stray : UInt8) : lastByte (init ++ [b]) stray = b := by
  simp [lastByte]

theorem ofValue_escape_eq {item : Bytes} (nonempty : item ≠ []) (stray : UInt8) :
    Stored.ofValue (escape item stray) = .item (if item = [0] then [0, 0] else item) := by
  obtain ⟨init, b, rfl⟩ := (List.eq_nil_or_concat item).resolve_left nonempty
  rw [List.concat_eq_append]
  unfold escape
  rw [lastByte_snoc]
  by_cases zero : b = 0
  · subst zero
    rw [if_pos rfl]
    cases init with
    | nil => rfl
    | cons first rest =>
      -- more than two bytes, of which the last two are `0, 0`
      have long : (first :: rest ++ [0] ++ [(0 : UInt8)]).length > 2 := by simp
      have last : (first :: rest ++ [0] ++ [(0 : UInt8)])[(first :: rest ++ [0] ++
          [(0 : UInt8)]).length - 1]? = some 0 := by simp
      have before : (first :: rest ++ [0] ++ [(0 : UInt8)])[(first :: rest ++ [0] ++
          [(0 : UInt8)]).length - 2]? = some 0 := by simp
      rw [Stored.ofValue, if_pos ⟨long, last⟩, if_neg (by rw [before]; decide), if_pos before,
        List.dropLast_concat, if_neg (by simp)]
  · rw [if_neg zero, Stored.ofValue, if_neg, if_neg]
    · intro single
      have alone : _ ++ [_] = [] ++ [(0 : UInt8)] := single
      obtain ⟨-, same⟩ := List.append_inj' alone rfl
      exact zero (List.cons.inj same).1
    · rintro ⟨-, last⟩
      simp at last
      exact zero last

theorem escape_ne_str (item : Bytes) (stray : UInt8) (header : Header) :
    escape item stray ≠ header.str := by
  intro same
  apply ofValue_escape item stray (Header.ofBytes header.str)
  rw [same, Stored.ofValue_bytes]

variable {q q' : Queue} {id : ℕ} {value : Bytes}

theorem popRead_item {bytes : Bytes} (entry : q.contents.lookup ⟨.queue, id⟩ = some value)
    (item : Stored.ofValue value = .item bytes) (old : Header) :
    q.popRead old id true = (.ok bytes, {}) := by
  simp [Queue.popRead, Queue.get, entry, item]

theorem popRead_header {header : Header} (entry : q.contents.lookup ⟨.queue, id⟩ = some value)
    (stored : Stored.ofValue value = .header header) (old : Header) :
    q.popRead old id true = (.ok value, header) := by
  simp [Queue.popRead, Queue.get, entry, stored]

theorem entry_pushed {held : List ℕ} {sync ok : Bool} (own : q.Ownership held)
    (push : q.pushValue value sync ok = .ok (id, q')) :
    q'.contents.lookup ⟨.queue, id⟩ = some value := by
  obtain ⟨rfl, rfl⟩ := Queue.pushValue_ok push
  rw [contents_pushed own.head_type, lookup_insert_eq, if_pos rfl]

theorem records_pushValue {held : List ℕ} {sync ok : Bool} (own : q.Ownership held)
    (push : q.pushValue value sync ok = .ok (id, q')) : Records id (some value) q' held := by
  refine ⟨own.pushValue push, ?_, fun _ => entry_pushed own push⟩
  rw [Queue.head_pushValue push, (Queue.pushValue_ok push).1]
  exact Nat.lt_succ_self _

theorem push_of_write {s s' : OQStream} {chunk : Bytes} {stray : UInt8} {io : Io}
    (single : s.header.end_ ≤ 1) (write : s.write q chunk stray io = (.ok (), s', q')) :
    q.push chunk stray s.sync (io 0) = .ok (s'.id, q') := by
  rcases s.write_cases q chunk stray io with
    ⟨-, same⟩ | ⟨-, -, ⟨e, -, same⟩ | ⟨s₁, q₁, stored, same⟩⟩
  · rw [same] at write
    cases write
  · rw [same] at write
    cases write
  · rw [same] at write
    rcases OQStream.store_ok stored with ⟨-, id, push, rfl⟩ | ⟨multi, -⟩
    · rcases OQStream.finish_cases _ q₁ (io 1) with
        ⟨-, ended⟩ | ⟨-, -, ended⟩ | ⟨-, multi, -⟩
      · rw [ended] at write
        cases write
        exact push
      · rw [ended] at write
        cases write
        exact push
      · exact absurd multi (by simpa [OQStream.advance] using single)
    · omega

theorem records_owrite {p p₁ : Process} {i : ℕ} {s s₁ : OQStream} {chunk : Bytes} {stray : UInt8}
    {io : Io} (own : p.queue.Ownership p.held) (object : p.oqs[i]? = some s)
    (single : s.header.end_ ≤ 1) (write : Process.Step p (.act (.owrite i chunk stray io) .done) p₁)
    (after : p₁.oqs[i]? = some s₁) : Records s₁.id (some (escape chunk stray)) p₁.queue p₁.held := by
  cases write with
  | act run fits =>
    rw [exec_owrite object] at run
    obtain ⟨next, done⟩ := Prod.mk.inj run
    have row : (s.write p.queue chunk stray io).2.1 = s₁ := by
      rw [← next, row_setOqstream object] at after
      exact Option.some.inj after
    have ok : (s.write p.queue chunk stray io).1 = .ok () := by
      cases result : (s.write p.queue chunk stray io).1 with
      | ok _ => rfl
      | error e =>
        rw [result] at done
        cases done
    have push := push_of_write single (Prod.ext ok (Prod.ext row rfl))
    rw [← next]
    exact records_pushValue own push

theorem ownership_of_reachable {path : Bytes} {p : Process}
    (reach : Reachable Process.Step (Process.created path) p) : p.queue.Ownership p.held := by
  have own := (reachable_consistent reach).own
  rw [heldIds_config] at own
  exact own

/-- In any run, a non-empty item that was pushed reads back as it was, with the header
of a single chunk, unless it is the single byte `0`. -/
theorem popRead_pushed_iff {path : Bytes} {p p₁ p₂ : Process} {i : ℕ} {s s₁ : OQStream}
    {item : Bytes} {stray : UInt8} {io : Io} {es : List Process.Event}
    (reach : Reachable Process.Step (Process.created path) p) (nonempty : item ≠ [])
    (object : p.oqs[i]? = some s) (single : s.header.end_ ≤ 1)
    (push : Process.Step p (.act (.owrite i item stray io) .done) p₁)
    (after : p₁.oqs[i]? = some s₁) (run : Runs Process.Step p₁ es p₂)
    (acts : ∀ e ∈ es, e.isAct) (pop : p₂.queue.popBegin = some (s₁.id, q)) (old : Header) :
    q.popRead old s₁.id true = (.ok item, {}) ↔ item ≠ [0] := by
  have records := (itemInvariant_records s₁.id (some (escape item stray))).runs run acts
    (records_owrite (ownership_of_reachable reach) object single push after)
  have records' := (itemInvariant_records s₁.id (some (escape item stray))).popBegin records pop
  have entry := records'.entry (.inr List.mem_cons_self)
  rw [popRead_item entry (ofValue_escape_eq nonempty stray)]
  by_cases zero : item = [0]
  · simp [zero]
  · simp [zero]

def pushBeside (item : Bytes) : List Act :=
  [.newOqstream, .oopen 0 1 false, .owrite 0 item 0 fun _ => true, .oopen 0 1 false,
    .owrite 0 [7] 0 fun _ => true]

theorem popRead_pushed_escape : ∃ q,
    ((Process.created [113]).run (pushBeside [1, 0])).queue.popBegin = some (0, q) ∧
    q.popRead {} 0 true = (.ok [1, 0], {}) := by
  obtain ⟨q, pop⟩ : ∃ q,
    ((Process.created [113]).run (pushBeside [1, 0])).queue.popBegin = some (0, q) := ⟨_, rfl⟩
  have reach : Reachable Process.Step (Process.created [113])
      ((Process.created [113]).run ((pushBeside [1, 0]).take 2)) :=
    ⟨_, Process.runs_events _ _ (by decide)⟩
  have push : Process.Step ((Process.created [113]).run ((pushBeside [1, 0]).take 2))
      (.act (.owrite 0 [1, 0] 0 fun _ => true) .done)
      ((Process.created [113]).run ((pushBeside [1, 0]).take 3)) := .act rfl (by decide)
  have run : Runs Process.Step ((Process.created [113]).run ((pushBeside [1, 0]).take 3))
      (((Process.created [113]).run ((pushBeside [1, 0]).take 3)).events
        [.oopen 0 1 false, .owrite 0 [7] 0 fun _ => true])
      ((Process.created [113]).run (pushBeside [1, 0])) := Process.runs_events _ _ (by decide)
  refine ⟨q, pop, ?_⟩
  exact (popRead_pushed_iff reach (by decide) rfl (by decide) push rfl run (by decide) pop {}).mpr
    (by decide)

/-- The single byte `0` comes back as two. -/
theorem popRead_zero : ∃ q,
    ((Process.created [113]).run ((pushBeside [0]).take 3)).queue.popBegin = some (0, q) ∧
    q.popRead {} 0 true = (.ok [0, 0], {}) ∧ q.popRead {} 0 true ≠ (.ok [0], {}) := by
  refine ⟨_, rfl, ?_, ?_⟩
  · rfl
  · decide

/-- In any reachable state, a header that is pushed reads back as that header and an
item reads back as an item, whatever bytes a client chose for it; and as long as an
item is held, its stream takes no chunk range from it. -/
theorem headers_items_apart {path : Bytes} {p : Process}
    (reach : Reachable Process.Step (Process.created path) p) :
    (∀ header sync ok id q, header.Fits → p.queue.pushHeader header sync ok = .ok (id, q) →
      ∀ old, q.popRead old id true = (.ok header.str, header)) ∧
    (∀ item stray sync ok id q, item ≠ [] → p.queue.push item stray sync ok = .ok (id, q) →
      ∀ old, ∃ bytes, q.popRead old id true = (.ok bytes, {})) ∧
    (∀ item stray (header : Header), item ≠ [] → escape item stray ≠ header.str) ∧
    ∀ {i s item stray io p₁ s₁ es p₂}, item ≠ [] → p.oqs[i]? = some s → s.header.end_ ≤ 1 →
      Process.Step p (.act (.owrite i item stray io) .done) p₁ → p₁.oqs[i]? = some s₁ →
      Runs Process.Step p₁ es p₂ → (∀ e ∈ es, e.isAct) →
      ∀ r ∈ p₂.iqs, r.queue.isSome → r.id = s₁.id →
        (∀ old, ∃ bytes, p₂.queue.popRead old r.id true = (.ok bytes, {})) ∧
        r.header.end_ ≤ 1 ∧ Queue.itemKeys r.id r.header = [⟨.queue, r.id⟩] := by
  have own := ownership_of_reachable reach
  refine ⟨?_, ?_, fun item stray header _ => escape_ne_str item stray header, ?_⟩
  · intro header sync ok id q fits push old
    exact popRead_header (entry_pushed own push) (Stored.ofValue_str fits) old
  · intro item stray sync ok id q nonempty push old
    exact ⟨_, popRead_item (entry_pushed own push) (ofValue_escape_eq nonempty stray) old⟩
  · intro i s item stray io p₁ s₁ es p₂ nonempty object single push after run acts r mem isOpen same
    have records := (itemInvariant_records s₁.id (some (escape item stray))).runs run acts
      (records_owrite own object single push after)
    have reader : r ∈ p₂.iqs.filterMap reader :=
      List.mem_filterMap.mpr ⟨r, mem, reader_open isOpen⟩
    have stored : p₂.queue.contents.lookup ⟨.queue, r.id⟩ = some (escape item stray) := by
      rw [same]
      refine records.entry (.inr ?_)
      rw [← same, ← heldIds_config]
      exact List.mem_map_of_mem reader
    have plain : r.header.end_ ≤ 1 := by
      by_contra multi
      have layout := (reachable_consistent ((reach.next push).runs run)).layout
      obtain ⟨value, at', header⟩ := layout.known r reader (by omega)
      have shown : some value = some (escape item stray) := at'.symm.trans stored
      obtain rfl := Option.some.inj shown
      exact ofValue_escape item stray _ header
    refine ⟨?_, plain, ?_⟩
    · intro old
      exact ⟨_, popRead_item stored (ofValue_escape_eq nonempty stray) old⟩
    · simp [Queue.itemKeys, plain]

theorem headers_items_apart_forged : ∃ id q bytes,
    ((Process.created [113]).run [.newOqstream, .oopen 0 1 false]).queue.push
      (Header.str ⟨0, 9, 5⟩) 0 false true = .ok (id, q) ∧
    q.popRead {} id true = (.ok bytes, {}) := by
  obtain ⟨id, q, push⟩ : ∃ id q,
    ((Process.created [113]).run [.newOqstream, .oopen 0 1 false]).queue.push
      (Header.str ⟨0, 9, 5⟩) 0 false true = .ok (id, q) := ⟨_, _, rfl⟩
  have reach : Reachable Process.Step (Process.created [113])
      ((Process.created [113]).run [.newOqstream, .oopen 0 1 false]) :=
    ⟨_, Process.runs_events _ _ (by decide)⟩
  obtain ⟨bytes, read⟩ :=
    (headers_items_apart reach).2.1 (Header.str ⟨0, 9, 5⟩) 0 false true id q (by decide) push {}
  exact ⟨id, q, bytes, push, read⟩

end Darner.ItemCodec
