import Darner.Library.LabelledRuns
import Darner.QueueOwnership

/-! The classes `iqstream` and `oqstream`, and the process in which any number of
them share one queue. A stream is open while it holds a queue pointer, here the
queue's address. `io` gives the outcome of the journal calls an operation makes,
one flag for each place that makes one. A process step is one call of a stream method, a stream destructor or
`queue::destroy`; a crash ends the process and the next one opens what is left
of the journal. -/

namespace Darner
open OrderedStore LabelledRuns

abbrev Io := ℕ → Bool

structure IQStream where
  queue : Option ℕ := none
  id : ℕ := 0
  header : Header := {}
  chunkPos : ℕ := 0
  tell : ℕ := 0

namespace IQStream

def size (s : IQStream) : ℕ := s.header.size

def open_ (s : IQStream) (address : ℕ) (q : Queue) : Except Error Bool × IQStream × Queue :=
  if s.queue.isSome then (.error .alreadyOpen, s, q)
  else match q.popBegin with
    | none => (.ok false, s, q)
    | some (id, q) =>
      (.ok true, { queue := some address, id := id, header := {}, chunkPos := 0, tell := 0 }, q)

def readEntry (s : IQStream) (q : Queue) (ok : Bool) : Except Error Bytes × IQStream :=
  match q.popRead s.header s.id ok with
  | (.error e, header) => (.error e, { s with header := header })
  | (.ok result, header) =>
    if header.end_ > 1 then (.ok result, { s with header := header, chunkPos := header.beg })
    else (.ok result, { s with header := { header with size := result.length } })

def readChunk (s : IQStream) (q : Queue) (result : Bytes) (ok : Bool) :
    Except Error Bytes × IQStream :=
  match if s.header.end_ > 1 then q.readChunk s.chunkPos ok else .ok result with
  | .error e => (.error e, s)
  | .ok result =>
    (.ok result, { s with chunkPos := s.chunkPos + 1, tell := s.tell + result.length })

def read (s : IQStream) (q : Queue) (io : Io) : Except Error Bytes × IQStream :=
  if s.queue.isNone ∨ s.chunkPos ≥ s.header.end_ then (.error .eof, s)
  else if s.chunkPos = 0 then
    match s.readEntry q (io 0) with
    | (.error e, s) => (.error e, s)
    | (.ok result, s) => s.readChunk q result (io 1)
  else s.readChunk q [] (io 1)

/-- A throwing `pop_end` leaves the stream open. -/
def close (s : IQStream) (q : Queue) (erase ok : Bool) : Except Error (IQStream × Queue) :=
  if s.queue.isNone then .ok (s, q)
  else do
    let q ← q.popEnd erase s.id s.header ok
    pure ({ s with queue := none }, q)

def destruct (s : IQStream) (q : Queue) : Queue :=
  if s.queue.isSome then
    match q.popEnd false s.id s.header true with
    | .ok q => q
    | .error _ => q
  else q

variable {s s' : IQStream} {q q' : Queue}

theorem open_cases (s : IQStream) (address : ℕ) (q : Queue) :
    (s.queue.isSome ∧ s.open_ address q = (.error .alreadyOpen, s, q)) ∨
    (s.queue = none ∧ q.popBegin = none ∧ s.open_ address q = (.ok false, s, q)) ∨
    (s.queue = none ∧ ∃ id q', q.popBegin = some (id, q') ∧
      s.open_ address q = (.ok true, { queue := some address, id := id }, q')) := by
  unfold open_
  cases hq : s.queue with
  | some a => exact .inl ⟨rfl, by simp⟩
  | none =>
    cases hp : q.popBegin with
    | none => exact .inr (.inl ⟨rfl, rfl, by simp⟩)
    | some pair => exact .inr (.inr ⟨rfl, pair.1, pair.2, rfl, by simp⟩)

theorem close_ok {erase ok : Bool} (h : s.close q erase ok = .ok (s', q')) :
    (s.queue = none ∧ s' = s ∧ q' = q) ∨
    (s.queue.isSome ∧ s' = { s with queue := none } ∧
      q.popEnd erase s.id s.header ok = .ok q') := by
  unfold close at h
  cases hq : s.queue with
  | none =>
    simp only [hq, Option.isNone_none, if_true] at h
    obtain ⟨rfl, rfl⟩ := Prod.mk.inj (Except.ok.inj h)
    exact .inl ⟨rfl, rfl, rfl⟩
  | some a =>
    simp only [hq, Option.isNone_some, Bool.false_eq_true, if_false] at h
    obtain ⟨q₁, ended, h⟩ := bind_ok h
    obtain ⟨rfl, rfl⟩ := Prod.mk.inj (Except.ok.inj h)
    exact .inr ⟨rfl, rfl, ended⟩

theorem destruct_open (h : s.queue.isSome) : s.destruct q = (q.putBack s.id).wakeUp := by
  simp [destruct, h, Queue.popEnd_return]

theorem destruct_closed (h : s.queue = none) : s.destruct q = q := by
  simp [destruct, h]

theorem queue_readEntry (s : IQStream) (q : Queue) (ok : Bool) :
    (s.readEntry q ok).2.queue = s.queue := by
  unfold readEntry
  rcases q.popRead s.header s.id ok with ⟨result, header⟩
  cases result with
  | error e => rfl
  | ok result =>
    dsimp only
    split <;> rfl

theorem queue_readChunk (s : IQStream) (q : Queue) (result : Bytes) (ok : Bool) :
    (s.readChunk q result ok).2.queue = s.queue := by
  unfold readChunk
  split <;> rfl

theorem queue_read (s : IQStream) (q : Queue) (io : Io) : (s.read q io).2.queue = s.queue := by
  unfold read
  split
  · rfl
  · split
    · have entry := s.queue_readEntry q (io 0)
      rcases hr : s.readEntry q (io 0) with ⟨result, s'⟩
      rw [hr] at entry
      cases result with
      | error e => exact entry
      | ok result => exact (s'.queue_readChunk q result (io 1)).trans entry
    · exact s.queue_readChunk q [] (io 1)

theorem id_read (s : IQStream) (q : Queue) (io : Io) : (s.read q io).2.id = s.id := by
  have entry : ∀ ok, (s.readEntry q ok).2.id = s.id := by
    intro ok
    unfold readEntry
    rcases q.popRead s.header s.id ok with ⟨result, header⟩
    cases result with
    | error e => rfl
    | ok result =>
      dsimp only
      split <;> rfl
  have chunk : ∀ (t : IQStream) result ok, (t.readChunk q result ok).2.id = t.id := by
    intro t result ok
    unfold readChunk
    split <;> rfl
  unfold read
  split
  · rfl
  · split
    · have same := entry (io 0)
      rcases hr : s.readEntry q (io 0) with ⟨result, s'⟩
      rw [hr] at same
      cases result with
      | error e => exact same
      | ok result => exact (chunk s' result (io 1)).trans same
    · exact chunk s [] (io 1)

end IQStream

structure OQStream where
  queue : Option ℕ := none
  id : ℕ := 0
  header : Header := {}
  chunkPos : ℕ := 0
  sync : Bool := false

namespace OQStream

def tell (s : OQStream) : ℕ := s.header.size

def open_ (s : OQStream) (address : ℕ) (q : Queue) (chunksCount : ℕ) (sync : Bool) :
    Except Error Unit × OQStream × Queue :=
  if s.queue.isSome then (.error .alreadyOpen, s, q)
  else
    let (header, q) := if chunksCount > 1 then q.reserveChunks chunksCount else ({}, q)
    (.ok (), { s with sync := sync, queue := some address, header := header,
                      chunkPos := header.beg }, q)

def store (s : OQStream) (q : Queue) (chunk : Bytes) (stray : UInt8) (ok : Bool) :
    Except Error (OQStream × Queue) :=
  if s.header.end_ ≤ 1 then do
    let (id, q) ← q.push chunk stray s.sync ok
    pure ({ s with id := id }, q)
  else do
    let q ← q.writeChunk chunk s.chunkPos ok
    pure (s, q)

def advance (s : OQStream) (size : ℕ) : OQStream :=
  { s with header := { s.header with size := s.header.size + size }
           chunkPos := s.chunkPos + 1 }

/-- What follows the store: after the last chunk a multi-chunk item gets its
header, and the stream closes. -/
def finish (s : OQStream) (q : Queue) (ok : Bool) : Except Error Unit × OQStream × Queue :=
  if s.chunkPos = s.header.end_ then
    if s.header.end_ > 1 then
      match q.pushHeader s.header s.sync ok with
      | .error e => (.error e, s, q)
      | .ok (id, q) => (.ok (), { s with id := id, queue := none }, q)
    else (.ok (), { s with queue := none }, q)
  else (.ok (), s, q)

def write (s : OQStream) (q : Queue) (chunk : Bytes) (stray : UInt8) (io : Io) :
    Except Error Unit × OQStream × Queue :=
  if s.queue.isNone ∨ s.chunkPos = s.header.end_ then (.error .eof, s, q)
  else match s.store q chunk stray (io 0) with
    | .error e => (.error e, s, q)
    | .ok (s, q) => (s.advance chunk.length).finish q (io 1)

def cancel (s : OQStream) (q : Queue) (ok : Bool) : Except Error (OQStream × Queue) :=
  if s.queue.isNone then .error .eof
  else do
    let q ← if s.header.end_ > 1 then q.eraseChunks s.header ok else pure q
    pure ({ s with queue := none }, q)

/-- The destructor cancels an unfinished push and swallows what that throws. -/
def destruct (s : OQStream) (q : Queue) (ok : Bool) : Queue :=
  if s.queue.isSome then
    match s.cancel q ok with
    | .ok (_, q) => q
    | .error _ => q
  else q

variable {s s' : OQStream} {q q' : Queue}

theorem store_ok {chunk : Bytes} {stray : UInt8} {ok : Bool}
    (h : s.store q chunk stray ok = .ok (s', q')) :
    (s.header.end_ ≤ 1 ∧ ∃ id, q.push chunk stray s.sync ok = .ok (id, q') ∧
      s' = { s with id := id }) ∨
    (s.header.end_ > 1 ∧ q.writeChunk chunk s.chunkPos ok = .ok q' ∧ s' = s) := by
  unfold store at h
  split at h
  case isTrue single =>
    obtain ⟨⟨id, q₁⟩, pushed, h⟩ := bind_ok h
    obtain ⟨rfl, rfl⟩ := Prod.mk.inj (Except.ok.inj h)
    exact .inl ⟨single, id, pushed, rfl⟩
  case isFalse multi =>
    obtain ⟨q₁, written, h⟩ := bind_ok h
    obtain ⟨rfl, rfl⟩ := Prod.mk.inj (Except.ok.inj h)
    exact .inr ⟨by omega, written, rfl⟩

theorem cancel_ok {ok : Bool} (h : s.cancel q ok = .ok (s', q')) :
    s.queue.isSome ∧ s' = { s with queue := none } ∧
      (s.header.end_ > 1 ∧ q.eraseChunks s.header ok = .ok q' ∨ s.header.end_ ≤ 1 ∧ q' = q) := by
  unfold cancel at h
  cases hq : s.queue with
  | none => simp [hq] at h
  | some a =>
    simp only [hq, Option.isNone_some, Bool.false_eq_true, if_false] at h
    split at h
    case isTrue multi =>
      obtain ⟨q₁, erased, h⟩ := bind_ok h
      obtain ⟨rfl, rfl⟩ := Prod.mk.inj (Except.ok.inj h)
      exact ⟨rfl, rfl, .inl ⟨multi, erased⟩⟩
    case isFalse single =>
      obtain ⟨rfl, rfl⟩ := Prod.mk.inj (Except.ok.inj h)
      exact ⟨rfl, rfl, .inr ⟨by omega, rfl⟩⟩

theorem open_queue (s : OQStream) (address : ℕ) (q : Queue) (count : ℕ) (sync : Bool) :
    (s.open_ address q count sync).2.2 = q ∨
      (s.open_ address q count sync).2.2 = (q.reserveChunks count).2 := by
  unfold open_
  split
  · exact .inl rfl
  · dsimp only
    split
    · exact .inr rfl
    · exact .inl rfl

theorem destruct_queue (s : OQStream) (q : Queue) (ok : Bool) :
    s.destruct q ok = q ∨ q.eraseChunks s.header ok = .ok (s.destruct q ok) := by
  unfold destruct
  split
  · split
    case h_1 cancel =>
      obtain ⟨-, -, ⟨-, erase⟩ | ⟨-, rfl⟩⟩ := cancel_ok cancel
      · exact .inr erase
      · exact .inl rfl
    case h_2 => exact .inl rfl
  · exact .inl rfl

theorem write_cases (s : OQStream) (q : Queue) (chunk : Bytes) (stray : UInt8) (io : Io) :
    ((s.queue = none ∨ s.chunkPos = s.header.end_) ∧
      s.write q chunk stray io = (.error .eof, s, q)) ∨
    (s.queue.isSome ∧ s.chunkPos ≠ s.header.end_ ∧
      ((∃ e, s.store q chunk stray (io 0) = .error e ∧
        s.write q chunk stray io = (.error e, s, q)) ∨
      ∃ s₁ q₁, s.store q chunk stray (io 0) = .ok (s₁, q₁) ∧
        s.write q chunk stray io = (s₁.advance chunk.length).finish q₁ (io 1))) := by
  unfold write
  by_cases stuck : s.queue.isNone ∨ s.chunkPos = s.header.end_
  · exact .inl ⟨by simpa using stuck, by rw [if_pos stuck]⟩
  · have isOpen : s.queue.isSome := by cases hq : s.queue <;> simp_all
    refine .inr ⟨isOpen, fun e => stuck (.inr e), ?_⟩
    rw [if_neg stuck]
    cases hs : s.store q chunk stray (io 0) with
    | error e => exact .inl ⟨e, rfl, rfl⟩
    | ok pair => exact .inr ⟨pair.1, pair.2, rfl, rfl⟩

theorem finish_cases (s : OQStream) (q : Queue) (ok : Bool) :
    (s.chunkPos ≠ s.header.end_ ∧ s.finish q ok = (.ok (), s, q)) ∨
    (s.chunkPos = s.header.end_ ∧ s.header.end_ ≤ 1 ∧
      s.finish q ok = (.ok (), { s with queue := none }, q)) ∨
    (s.chunkPos = s.header.end_ ∧ s.header.end_ > 1 ∧
      ((∃ e, s.finish q ok = (.error e, s, q)) ∨
      ∃ id q', q.pushHeader s.header s.sync ok = .ok (id, q') ∧
        s.finish q ok = (.ok (), { s with id := id, queue := none }, q'))) := by
  unfold finish
  by_cases finished : s.chunkPos = s.header.end_
  · rw [if_pos finished]
    by_cases multi : s.header.end_ > 1
    · rw [if_pos multi]
      refine .inr (.inr ⟨finished, multi, ?_⟩)
      cases hp : q.pushHeader s.header s.sync ok with
      | error e => exact .inl ⟨e, rfl⟩
      | ok pair => exact .inr ⟨pair.1, pair.2, rfl, rfl⟩
    · rw [if_neg multi]
      exact .inr (.inl ⟨finished, by omega, rfl⟩)
  · exact .inl ⟨finished, by rw [if_neg finished]⟩

end OQStream

structure Process where
  queue : Queue
  iqs : List IQStream
  oqs : List OQStream

inductive Act where
  | newIqstream
  | newOqstream
  | iopen (i : ℕ)
  | iread (i : ℕ) (io : Io)
  | iclose (i : ℕ) (erase ok : Bool)
  | idestruct (i : ℕ)
  | oopen (i chunksCount : ℕ) (sync : Bool)
  | owrite (i : ℕ) (chunk : Bytes) (stray : UInt8) (io : Io)
  | ocancel (i : ℕ) (ok : Bool)
  | odestruct (i : ℕ) (ok : Bool)
  | destroy (taken : List Bytes)

/-- What a call returns or throws. -/
inductive Outcome where
  | done
  | opened (available : Bool)
  | chunk (bytes : Bytes)
  | threw (error : Error)
deriving DecidableEq

namespace Outcome

def ofOpen : Except Error Bool → Outcome
  | .ok available => .opened available
  | .error e => .threw e

def ofRead : Except Error Bytes → Outcome
  | .ok bytes => .chunk bytes
  | .error e => .threw e

def ofWrite : Except Error Unit → Outcome
  | .ok () => .done
  | .error e => .threw e

end Outcome

namespace Process

def address : ℕ := 0

def setIqstream (p : Process) (i : ℕ) (s : IQStream) (q : Queue) : Process :=
  { p with queue := q, iqs := p.iqs.set i s }

def setOqstream (p : Process) (i : ℕ) (s : OQStream) (q : Queue) : Process :=
  { p with queue := q, oqs := p.oqs.set i s }

def onIqstream (p : Process) (i : ℕ) (call : IQStream → Process × Outcome) : Process × Outcome :=
  match p.iqs[i]? with
  | none => (p, .done)
  | some s => call s

def onOqstream (p : Process) (i : ℕ) (call : OQStream → Process × Outcome) : Process × Outcome :=
  match p.oqs[i]? with
  | none => (p, .done)
  | some s => call s

def exec (p : Process) : Act → Process × Outcome
  | .newIqstream => ({ p with iqs := p.iqs ++ [{}] }, .done)
  | .newOqstream => ({ p with oqs := p.oqs ++ [{}] }, .done)
  | .iopen i => p.onIqstream i fun s =>
      let (result, s, q) := s.open_ address p.queue
      (p.setIqstream i s q, .ofOpen result)
  | .iread i io => p.onIqstream i fun s =>
      let (result, s) := s.read p.queue io
      (p.setIqstream i s p.queue, .ofRead result)
  | .iclose i erase ok => p.onIqstream i fun s =>
      match s.close p.queue erase ok with
      | .ok (s, q) => (p.setIqstream i s q, .done)
      | .error e => (p, .threw e)
  | .idestruct i => p.onIqstream i fun s => (p.setIqstream i {} (s.destruct p.queue), .done)
  | .oopen i chunksCount sync => p.onOqstream i fun s =>
      let (result, s, q) := s.open_ address p.queue chunksCount sync
      (p.setOqstream i s q, .ofWrite result)
  | .owrite i chunk stray io => p.onOqstream i fun s =>
      let (result, s, q) := s.write p.queue chunk stray io
      (p.setOqstream i s q, .ofWrite result)
  | .ocancel i ok => p.onOqstream i fun s =>
      match s.cancel p.queue ok with
      | .ok (s, q) => (p.setOqstream i s q, .done)
      | .error e => (p, .threw e)
  | .odestruct i ok => p.onOqstream i fun s => (p.setOqstream i {} (s.destruct p.queue ok), .done)
  | .destroy taken => ({ p with queue := p.queue.destroy taken }, .done)

def start (image : Store Key Bytes) (path : Bytes) : Option Process :=
  (Queue.new image path).map fun q => ⟨q, [], []⟩

/-- All ids and sizes are 64-bit words. A queue is taken never to run out of
them: "you can only run the server for 23 million years". -/
structure Fits (p : Process) : Prop where
  head : p.queue.queueHead.id < wordSize
  chunks : p.queue.chunksHead.id < wordSize
  sizes : ∀ s ∈ p.oqs, s.header.size < wordSize

/-- The journals a queue can be opened on again. -/
def Reopenable (image : Store Key Bytes) : Prop :=
  (∃ id, (⟨.queue, id⟩ : Key) ∈ image) ∨ ∀ key, key ∉ image

inductive Event where
  | act (act : Act) (outcome : Outcome)
  /-- The process ends; the first `writes` journal writes it made survive. -/
  | crash (writes : ℕ)

def Event.isAct : Event → Bool
  | .act _ _ => true
  | .crash _ => false

inductive Step : Process → Event → Process → Prop where
  | act {p p' : Process} {act : Act} {outcome : Outcome}
      (run : p.exec act = (p', outcome)) (fits : p'.Fits) : Step p (.act act outcome) p'
  | crash {p p' : Process} {writes : ℕ}
      (reopen : Reopenable (p.queue.journal.imageAt writes))
      (fresh : start (p.queue.journal.imageAt writes) p.queue.path = some p') :
      Step p (.crash writes) p'

def created (path : Bytes) : Process := ⟨.blank ∅ path, [], []⟩

def run (p : Process) (acts : List Act) : Process :=
  acts.foldl (fun p act => (p.exec act).1) p

def trace : Process → List Act → List Process
  | _, [] => []
  | p, act :: acts => (p.exec act).1 :: (p.exec act).1.trace acts

def events : Process → List Act → List Event
  | _, [] => []
  | p, act :: acts => .act act (p.exec act).2 :: (p.exec act).1.events acts

theorem runs_events (p : Process) (acts : List Act) (fits : ∀ p' ∈ p.trace acts, p'.Fits) :
    Runs Step p (p.events acts) (p.run acts) := by
  induction acts generalizing p with
  | nil => exact .nil p
  | cons act acts ih =>
    obtain ⟨first, rest⟩ := List.forall_mem_cons.mp fits
    exact .cons (.act rfl first) (ih _ rest)

instance (p : Process) : Decidable p.Fits :=
  decidable_of_iff (p.queue.queueHead.id < wordSize ∧ p.queue.chunksHead.id < wordSize ∧
      ∀ s ∈ p.oqs, s.header.size < wordSize)
    ⟨fun h => ⟨h.1, h.2.1, h.2.2⟩, fun h => ⟨h.head, h.chunks, h.sizes⟩⟩

def held (p : Process) : List ℕ :=
  (p.iqs.filter (·.queue.isSome)).map IQStream.id

end Process

end Darner
