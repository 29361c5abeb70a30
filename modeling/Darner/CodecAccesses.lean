import Darner.SetBodies

/-! The bytes that the codec of a queue looks at. `push` looks at the last byte of an item
without asking for one, `pop_read` looks at the last two when there are more than two, and a
header is read from 24 bytes of a value that ends like one. What is in a journal is always
long enough for its reader. What `push` is handed is a body, and the parser accepts a body
of no bytes. -/

namespace Darner.CodecAccesses
open OrderedStore LabelledRuns StreamMoves QueueRecovery ChunkLayout CrashConsistency ReadProgress ServerMoves
open ServerWaiters FetchEvents ReliableFetch ServerCalls SetProgress ChunkStore SetBodies

/-- `size() - k`, in words of the machine. -/
def back (size k : ℕ) : ℕ := if k ≤ size then size - k else size + wordSize - k

def pushAccesses (item : Bytes) : List ℕ := [back item.length 1]

def headerAccesses : List ℕ := List.range 24

/-- The indices that `pop_read` looks at in what it gets. -/
def popReadAccesses (value : Bytes) : List ℕ :=
  if value.length > 2 then
    back value.length 1 ::
      if value[back value.length 1]? = some 0 then
        back value.length 2 ::
          if value[back value.length 2]? = some 1 then headerAccesses
          else [back value.length 2]
      else []
  else []

def InBounds (bytes : Bytes) (accesses : List ℕ) : Prop := ∀ k ∈ accesses, k < bytes.length

theorem back_lt {size k : ℕ} (pos : 0 < k) (le : k ≤ size) : back size k < size := by
  rw [back, if_pos le]
  omega

theorem within_push_iff (item : Bytes) : InBounds item (pushAccesses item) ↔ item ≠ [] := by
  rw [← List.length_pos_iff]
  constructor
  · intro within
    have last := within (back item.length 1) List.mem_cons_self
    omega
  · intro some k mem
    obtain rfl := List.mem_singleton.mp mem
    exact back_lt Nat.one_pos some

theorem within_popRead {value : Bytes} (coded : Coded value) :
    InBounds value (popReadAccesses value) := by
  unfold popReadAccesses
  split
  case isFalse => simp [InBounds]
  case isTrue long =>
    have last : back value.length 1 < value.length := back_lt Nat.one_pos (by omega)
    have before : back value.length 2 < value.length := back_lt Nat.two_pos (by omega)
    split
    case isFalse => simpa [InBounds] using last
    case isTrue zero =>
      split
      case isFalse => simpa [InBounds] using ⟨last, before⟩
      case isTrue one =>
        have room : 24 ≤ value.length := by
          cases coded with
          | header header same =>
            rw [same, Header.length_str]
            decide
          | item bytes stray same =>
            rw [back, if_pos (by omega)] at zero one
            have read : Stored.ofValue value = .header (Header.ofBytes value) := by
              rw [Stored.ofValue, if_pos ⟨long, zero⟩, if_pos one]
            rw [same] at read
            exact absurd read (ofValue_escape bytes stray _)
        simp only [InBounds, List.mem_cons, headerAccesses, List.mem_range]
        rintro k (rfl | rfl | inside)
        · exact last
        · exact before
        · omega

def Legible (image : Image) : Prop :=
  ∀ id value, image.lookup ⟨.queue, id⟩ = some value → Coded value

theorem legible_contents {q : Queue} (legible : ∀ n, Legible (q.journal.imageAt n)) :
    Legible q.contents := by
  have last := legible q.journal.log.length
  rwa [Journal.imageAt_length] at last

theorem move_legible {c c' : Config} {bounded : ℕ → Prop} {solid : Bytes → Prop}
    (cons : Consistent c) (move : Move bounded solid c c')
    (legible : ∀ n, Legible (c.queue.journal.imageAt n)) :
    ∀ n, Legible (c'.queue.journal.imageAt n) := by
  rcases move_journal cons.own.head_type move with same | ⟨entry, write, puts, -⟩
  · rw [same]
    exact legible
  · rw [write]
    apply Journal.images_write legible
    intro id value found
    rw [Journal.contents_write] at found
    rcases lookup_apply found with old | new
    · exact legible_contents legible id value old
    · exact (puts id value new).2

theorem change_legible (c c' : Config)
    (h : Sound c ∧ ∀ n, Legible (c.queue.journal.imageAt n)) (change : Change c c') :
    Sound c' ∧ ∀ n, Legible (c'.queue.journal.imageAt n) := by
  refine ⟨change_sound c c' h.1 change, ?_⟩
  cases change with
  | move move => exact move_legible h.1.cons move h.2
  | unseen unseen =>
    rw [unseen.journal]
    exact h.2

theorem legible_new {image : Image} {path : Bytes} {q : Queue}
    (new : Queue.new image path = some q) (legible : Legible image) :
    ∀ n, Legible (q.journal.imageAt n) := by
  intro n
  rw [journal_new new, Journal.imageAt_fresh]
  exact legible

theorem legible_blank (n : ℕ) : Legible ((Queue.blank ∅ []).journal.imageAt n) := by
  refine legible_new (new_empty [] fun _ => Finmap.notMem_empty) (fun id value found => ?_) n
  rw [Finmap.lookup_empty] at found
  cases found

variable {s s' : Server} {i n : ℕ} {env : Env}

theorem life_legible (s : Server) (turn : LifeEvent) (s' : Server)
    (h : Settled s ∧ ∀ a n, Legible ((s.object a).journal.imageAt n)) (life : Life s turn s') :
    ∀ a n, Legible ((s'.object a).journal.imageAt n) := by
  obtain ⟨settled, legible⟩ := h
  cases life with
  | event step fits =>
    intro a
    exact ((life_changes settled (.event step fits) a).invariant change_legible
      ⟨settled.sound a, legible a⟩).2
  | restart again =>
    refine Server.object_all (P := fun q => ∀ n, Legible (q.journal.imageAt n))
      (fun q mem => ?_) legible_blank
    obtain ⟨a, writes, path, new⟩ := again.journals q mem
    exact legible_new new (legible a writes)

def pushesItem (stream : OQStream) : Bool :=
  stream.queue.isSome && stream.chunkPos != stream.header.end_ && stream.header.end_ ≤ 1

def pushes (s : Server) : ServerEvent → List Bytes
  | .readDone i env =>
    if callsBack i s (.readDone i env) && pushesItem (s.conn i).pushStream then
      (passed s.chunkSize (s.conn i)).toList
    else []
  | _ => []

/-- The `num_bytes` of the `set` that an event completes: its last bytes are there, with their
line end. -/
def completes (s : Server) : ServerEvent → List ℕ
  | .readDone i env =>
    if callsBack i s (.readDone i env) &&
        (s.conn i).req.numBytes - (s.conn i).pushStream.tell ≤ s.chunkSize &&
        (passed s.chunkSize (s.conn i)).isSome then
      [(s.conn i).req.numBytes]
    else []
  | _ => []

theorem write_stray {stream : OQStream} {q : Queue} {chunk : Bytes} {io : Io}
    (within : pushesItem stream = true → InBounds chunk (pushAccesses chunk)) (stray stray' : UInt8) :
    stream.write q chunk stray io = stream.write q chunk stray' io := by
  unfold OQStream.write
  split
  case isTrue => rfl
  case isFalse goesOn =>
    have same : stream.store q chunk stray (io 0) = stream.store q chunk stray' (io 0) := by
      unfold OQStream.store
      split
      case isFalse => rfl
      case isTrue single =>
        simp only [not_or, Option.isNone_iff_eq_none] at goesOn
        have item : pushesItem stream = true := by
          simp [pushesItem, Option.isSome_iff_ne_none, goesOn, single]
        have some := List.length_pos_iff.mpr ((within_push_iff chunk).mp (within item))
        have last : lastByte chunk stray = lastByte chunk stray' := by
          rw [lastByte, lastByte, List.getElem?_eq_getElem (by omega)]
          rfl
        rw [Queue.push, Queue.push, escape, escape, last]
    rw [same]

theorem callsBack_reading {event : ServerEvent} (back : callsBack i s event = true) :
    ∃ n, (s.conn i).pending = .readChunk n ∧ (n = 0 ∨ s.capacity ≤ (s.conn i).inBuf.length) := by
  unfold callsBack at back
  split at back
  case h_2 => cases back
  case h_1 =>
    split at back
    case h_2 => simp at back
    case h_1 n reading => exact ⟨n, reading, by simpa using And.right (by simpa using back)⟩

theorem nil_mem_pushes_iff (settled : Settled s) (steady : Steady s) (event : ServerEvent) :
    [] ∈ pushes s event ↔ 0 ∈ completes s event := by
  cases event with
  | readDone i env =>
    cases back : callsBack i s (.readDone i env) with
    | false => simp [pushes, completes, back]
    | true =>
      obtain ⟨n, reading, enough⟩ := callsBack_reading back
      have receiving := steady.receives.reading i n reading
      have filling := receiving.filling
      have buffered := (inRange_reading steady reading).buffered enough
      by_cases single : (s.conn i).pushStream.header.end_ ≤ 1
      · -- the whole body is one chunk
        have start := filling.start
        have stop := filling.stop
        have told : (s.conn i).pushStream.tell = 0 := by
          rw [filling.told, Nat.sub_eq_zero_of_le (by omega), Nat.zero_mul]
        have most : (s.conn i).req.numBytes ≤ s.chunkSize := by
          have most := filling.most
          rwa [show (s.conn i).pushStream.header.end_ - (s.conn i).pushStream.header.beg = 1
            by omega, Nat.one_mul] at most
        have item : pushesItem (s.conn i).pushStream = true := by
          simp [pushesItem, receiving.isOpen, single, Nat.ne_of_lt stop]
        have length : ((s.conn i).inBuf.take (s.conn i).req.numBytes).length =
            (s.conn i).req.numBytes := by
          unfold required at buffered
          dsimp only at buffered
          rw [told, Nat.sub_zero, if_neg (by omega)] at buffered
          exact List.length_take_of_le (by omega)
        have empty : (s.conn i).inBuf.take (s.conn i).req.numBytes = [] ↔
            (s.conn i).req.numBytes = 0 := by
          rw [← List.length_eq_zero_iff, length]
        have pushed : pushes s (.readDone i env) = (passed s.chunkSize (s.conn i)).toList := by
          rw [pushes, back, item]
          rfl
        have completed : completes s (.readDone i env) =
            if (passed s.chunkSize (s.conn i)).isSome then [(s.conn i).req.numBytes] else [] := by
          simp [completes, back, told, most]
        rw [pushed, completed, passed, told, Nat.sub_zero, if_pos most]
        split
        · simp
        · rw [Option.toList_some, Option.isSome_some, if_pos rfl, List.mem_singleton,
            List.mem_singleton, eq_comm, empty, eq_comm]
      · have more := ((settled.phase i).reading n reading).2.2 (by omega)
        have item : pushesItem (s.conn i).pushStream = false := by
          simp [pushesItem, single]
        have pushed : pushes s (.readDone i env) = [] := by
          rw [pushes, back, item]
          rfl
        rw [pushed]
        refine ⟨by simp, fun mem => ?_⟩
        rw [completes] at mem
        split at mem
        · rw [List.mem_singleton] at mem
          omega
        · cases mem
  | _ => simp [pushes, completes]

/-- The items that were passed to `queue::push`, and the sizes of the `set`s that were
completed. -/
structure Log where
  items : List Bytes := []
  sizes : List ℕ := []

def Log.next (log : Log) (s : Server) (event : ServerEvent) : Log where
  items := log.items ++ pushes s event
  sizes := log.sizes ++ completes s event

inductive Logged : Server × Log → LifeEvent → Server × Log → Prop where
  | event {s s' : Server} {log : Log} {event : ServerEvent} (life : Life s (.event event) s') :
      Logged (s, log) (.event event) (s', log.next s event)
  | restart {s s' : Server} {log : Log} (life : Life s .restart s') :
      Logged (s, log) .restart (s', log)

/-- The codec stays within its strings: in all that is stored, and in all that was pushed. -/
structure Safe (s : Server) (log : Log) : Prop where
  stored : ∀ address id value, (s.object address).contents.lookup ⟨.queue, id⟩ = some value →
    InBounds value (popReadAccesses value)
  pushed : ∀ item ∈ log.items, InBounds item (pushAccesses item)

variable {log : Log}

theorem safe_iff (legible : ∀ a n, Legible ((s.object a).journal.imageAt n)) :
    Safe s log ↔ [] ∉ log.items := by
  constructor
  · intro safe mem
    exact (within_push_iff []).mp (safe.pushed [] mem) rfl
  · intro none
    refine ⟨fun address id value found => ?_, fun item mem => ?_⟩
    · exact within_popRead (legible_contents (legible address) id value found)
    · rw [within_push_iff]
      rintro rfl
      exact none mem

structure LogRecorded (p : Server × Log) : Prop where
  settled : Settled p.1
  steady : Steady p.1
  legible : ∀ a n, Legible ((p.1.object a).journal.imageAt n)
  empty : [] ∈ p.2.items ↔ 0 ∈ p.2.sizes

theorem logged_recorded (p : Server × Log) (turn : LifeEvent) (p' : Server × Log)
    (recorded : LogRecorded p) (logged : Logged p turn p') : LogRecorded p' := by
  obtain ⟨settled, steady, legible, empty⟩ := recorded
  cases logged with
  | @event s s' log event life =>
    have steady' := (life_steady _ _ _ ⟨settled.awake, steady⟩ life).2
    refine ⟨life_settled _ _ _ settled life, steady', life_legible _ _ _ ⟨settled, legible⟩ life, ?_⟩
    simp only [Log.next, List.mem_append]
    exact or_congr empty (nil_mem_pushes_iff settled steady event)
  | @restart s s' log life =>
    have steady' := (life_steady _ _ _ ⟨settled.awake, steady⟩ life).2
    exact ⟨life_settled _ _ _ settled life, steady', life_legible _ _ _ ⟨settled, legible⟩ life,
      empty⟩

theorem recorded_empty {chunkSize : ℕ} {dataPath : Bytes} (pos : 0 < chunkSize) :
    LogRecorded (.empty chunkSize dataPath, {}) := by
  refine ⟨settled_empty pos, (reachable_steady pos .refl).2, ?_, by simp⟩
  exact Server.object_all (P := fun q => ∀ n, Legible (q.journal.imageAt n))
    (fun q mem => by cases mem) legible_blank

/-- The codec stays within its strings in the runs that complete no `set` of no bytes. -/
theorem codec_safe_iff {chunkSize : ℕ} {dataPath : Bytes} {turns : List LifeEvent} (pos : 0 < chunkSize)
    (runs : Runs Logged (.empty chunkSize dataPath, {}) turns (s, log)) :
    Safe s log ↔ 0 ∉ log.sizes := by
  have recorded := runs.preserves (P := LogRecorded)
    (fun p turn p' _ recorded logged => logged_recorded p turn p' recorded logged)
    (fun _ _ => trivial) (recorded_empty pos)
  rw [safe_iff recorded.legible, recorded.empty]

def logging : Server × Log → List ServerEvent → Option (Server × Log) :=
  during (fun _ => true) 0 fun log s event _ => log.next s event

theorem runs_logging {p p' : Server × Log} {events : List ServerEvent}
    (run : logging p events = some p') : Runs Logged p (events.map .event) p' :=
  runs_during LifeEvent.event id (fun _ _ _ _ _ _ life => .event life) run

def setBody (line body : String) : List ServerEvent :=
  let env : Env := ⟨fun _ => true, 0, 0, 0⟩
  [.accept, .recv 0 (ascii line), .readDone 0 env, .recv 0 (ascii body), .readDone 0 env]

theorem codec_safe_two : ∃ s log,
    Runs Logged (.empty 16 [47], {}) ((setBody "set q 0 0 2\r\n" "ab\r\n").map .event) (s, log) ∧
    log.items = [ascii "ab"] ∧ Safe s log := by
  have facts : (logging (.empty 16 [47], {}) (setBody "set q 0 0 2\r\n" "ab\r\n")).map
      (fun p => (p.2.items, p.2.sizes)) = some ([ascii "ab"], [2]) := by decide
  obtain ⟨⟨s, log⟩, run, same⟩ := Option.map_eq_some_iff.mp facts
  obtain ⟨items, sizes⟩ := Prod.mk.inj same
  have runs := runs_logging run
  refine ⟨s, log, runs, items, (codec_safe_iff (by decide) runs).mpr ?_⟩
  rw [sizes]
  decide

/-- `set q 0 0 0` and its body, which is the line end. -/
theorem codec_unsafe_empty : ∃ s log,
    Runs Logged (.empty 16 [47], {}) ((setBody "set q 0 0 0\r\n" "\r\n").map .event) (s, log) ∧
    log.items = [[]] ∧ pushAccesses [] = [wordSize - 1] ∧ ¬Safe s log := by
  have facts : (logging (.empty 16 [47], {}) (setBody "set q 0 0 0\r\n" "\r\n")).map
      (fun p => p.2.items) = some [[]] := by decide
  obtain ⟨⟨s, log⟩, run, items⟩ := Option.map_eq_some_iff.mp facts
  refine ⟨s, log, runs_logging run, items, ?_, fun safe => ?_⟩
  · rw [pushAccesses, back, if_neg (by decide), List.length_nil, Nat.zero_add]
  · have within := safe.pushed [] (by rw [items]; exact List.mem_cons_self)
    exact (within_push_iff []).mp within rfl

end Darner.CodecAccesses
