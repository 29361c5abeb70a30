import Darner.QueueJournal
import Mathlib.Data.Finset.Sort

/-! The class `queue`: a journal and the volatile bookkeeping over it.
A journal call takes a flag that says whether leveldb reports success; a call
that fails throws and leaves the journal as it was. `wait` callbacks are named by
the client that waits, and a list iterator by the node it points at. -/

namespace Darner
open OrderedStore

inductive Error where
  | ioError
  | eof
  | alreadyOpen
deriving DecidableEq

/-- A callback tied to a deadline timer. The timer completes once, after it has
expired or was cancelled, and only then can `waiter_wakeup` run. -/
structure Waiter where
  node : ℕ
  cb : ℕ
  waitMs : ℕ
  expired : Bool
  cancelled : Bool
deriving DecidableEq

def Waiter.due (waiter : Waiter) : Bool := waiter.expired || waiter.cancelled

structure Queue where
  path : Bytes
  journal : Journal Key Bytes
  queueHead : Key
  queueTail : Key
  chunksHead : Key
  itemsOpen : ℕ
  bytesEvicted : ℕ
  returned : Finset ℕ
  destroyed : Bool
  waiters : List Waiter
  /-- `wake_up_it_`; `none` is `waiters_.end()`. -/
  wakeUpIt : Option ℕ
  nextNode : ℕ
  /-- The ranges handed to `CompactRange` so far. -/
  compacted : List (Key × Key)

namespace Queue

def contents (q : Queue) : Store Key Bytes := q.journal.contents

def blank (image : Store Key Bytes) (path : Bytes) : Queue where
  path := path
  journal := ⟨image, []⟩
  queueHead := ⟨.queue, 0⟩
  queueTail := ⟨.queue, 0⟩
  chunksHead := ⟨.chunk, 0⟩
  itemsOpen := 0
  bytesEvicted := 0
  returned := ∅
  destroyed := false
  waiters := []
  wakeUpIt := none
  nextNode := 0
  compacted := []

/-- The constructor over the journal image found at `path`. The result is `none`
when `it->key()` is read through an iterator that is not valid. -/
def new (image : Store Key Bytes) (path : Bytes) : Option Queue :=
  match seek image ⟨.queue, 0⟩ with
  | none => some (blank image path)
  | some first =>
    match seek image ⟨.chunk, 0⟩ with
    | none => do
      let last ← seekToLast image
      pure { blank image path with queueTail := first, queueHead := ⟨.queue, last.id + 1⟩ }
    | some chunk => do
      -- we have chunks, so fetch the chunks head too
      let before ← prev image chunk
      let last ← seekToLast image
      pure { blank image path with queueTail := first, queueHead := ⟨.queue, before.id + 1⟩
                                   chunksHead := ⟨.chunk, last.id + 1⟩ }

def count (q : Queue) : ℕ := (q.queueHead.id - q.queueTail.id) + q.returned.card

def after : List Waiter → ℕ → Option ℕ
  | [], _ => none
  | w :: ws, it => if w.node = it then ws.head?.map Waiter.node else after ws it

def wait (q : Queue) (waitMs cb : ℕ) : Queue :=
  { q with
    waiters := q.waiters ++ [⟨q.nextNode, cb, waitMs, false, false⟩]
    wakeUpIt := if q.wakeUpIt = none then some q.nextNode else q.wakeUpIt
    nextNode := q.nextNode + 1 }

def cancelTimer (it : ℕ) (waiter : Waiter) : Waiter :=
  if waiter.node = it then { waiter with cancelled := true } else waiter

def wakeUp (q : Queue) : Queue :=
  match q.wakeUpIt with
  | none => q
  | some it =>
    { q with waiters := q.waiters.map (cancelTimer it), wakeUpIt := after q.waiters it }

/-- The test of `waiter_wakeup` that picks success over `timed_out`. -/
def hasItem (q : Queue) : Bool :=
  q.returned.Nonempty || q.queueTail.id < q.queueHead.id

/-- `waiter_wakeup` up to the call of the callback: the queue without the waiter,
and whether the callback is told of an item (`true`) or of a time-out. -/
def waiterWakeup (q : Queue) (it : ℕ) : Queue × Bool :=
  let q := { q with
    wakeUpIt := if q.wakeUpIt = some it then after q.waiters it else q.wakeUpIt
    waiters := q.waiters.filter (·.node ≠ it) }
  (q, q.hasItem)

def expireTimer (q : Queue) (it : ℕ) : Queue :=
  { q with waiters := q.waiters.map fun w =>
      if w.node = it then { w with expired := true } else w }

def put (q : Queue) (key : Key) (value : Bytes) (sync ok : Bool) : Except Error Queue :=
  if ok then .ok { q with journal := q.journal.write ⟨[.put key value], sync⟩ }
  else .error .ioError

def get (q : Queue) (key : Key) (ok : Bool) : Except Error Bytes :=
  match q.contents.lookup key with
  | some value => if ok then .ok value else .error .ioError
  | none => .error .ioError

def write (q : Queue) (deletes : List Key) (ok : Bool) : Except Error Queue :=
  if ok then .ok { q with journal := q.journal.write ⟨deletes.map .delete, false⟩ }
  else .error .ioError

def pushValue (q : Queue) (value : Bytes) (sync ok : Bool) : Except Error (ℕ × Queue) := do
  let q ← q.put q.queueHead value sync ok
  let id := q.queueHead.id
  pure (id, { q with queueHead := { q.queueHead with id := id + 1 } }.wakeUp)

def push (q : Queue) (item : Bytes) (stray : UInt8) (sync ok : Bool) :
    Except Error (ℕ × Queue) :=
  q.pushValue (escape item stray) sync ok

def pushHeader (q : Queue) (header : Header) (sync ok : Bool) : Except Error (ℕ × Queue) :=
  q.pushValue header.str sync ok

def popBegin (q : Queue) : Option (ℕ × Queue) :=
  match least q.returned with
  | some id =>
    some (id, { q with returned := q.returned.erase id, itemsOpen := q.itemsOpen + 1 })
  | none =>
    if q.queueTail.id ≠ q.queueHead.id then
      some (q.queueTail.id,
        { q with queueTail := { q.queueTail with id := q.queueTail.id + 1 }
                 itemsOpen := q.itemsOpen + 1 })
    else none

/-- The result and what is left in the caller's header. -/
def popRead (q : Queue) (header : Header) (id : ℕ) (ok : Bool) : Except Error Bytes × Header :=
  match q.get ⟨.queue, id⟩ ok with
  | .error e => (.error e, header)
  | .ok value =>
    match Stored.ofValue value with
    | .item bytes => (.ok bytes, {})
    | .header header => (.ok value, header)
    | .bad => (.error .ioError, {})

/-- `--k.id` on a 64-bit id. -/
def predecessor (key : Key) : Key := ⟨key.type, (key.id + wordSize - 1) % wordSize⟩

def compact (q : Queue) : Queue :=
  match seek q.contents ⟨.queue, 0⟩ with
  | none => q
  | some kq =>
    let q' := { q with compacted := q.compacted ++ [(⟨.queue, 0⟩, predecessor kq)] }
    match seek q.contents ⟨.chunk, 0⟩ with
    | none => q'
    | some kc =>
      { q' with compacted := q'.compacted ++ [(⟨.chunk, 0⟩, predecessor kc)] }

/-- The evicted range is compacted when it exceeds 32MB. -/
def evict (q : Queue) (size : ℕ) : Queue :=
  if q.bytesEvicted + size > 33554432 then
    { ({ q with bytesEvicted := q.bytesEvicted + size } : Queue).compact with bytesEvicted := 0 }
  else { q with bytesEvicted := q.bytesEvicted + size }

def itemKeys (id : ℕ) (header : Header) : List Key :=
  ⟨.queue, id⟩ :: if header.end_ > 1 then header.chunkKeys else []

def popEnd (q : Queue) (erase : Bool) (id : ℕ) (header : Header) (ok : Bool) :
    Except Error Queue :=
  if erase then do
    let q ← q.write (itemKeys id header) ok
    let q := q.evict header.size
    pure { q with itemsOpen := q.itemsOpen - 1 }
  else
    let q := { q with returned := insert id q.returned }.wakeUp
    .ok { q with itemsOpen := q.itemsOpen - 1 }

def reserveChunks (q : Queue) (count : ℕ) : Header × Queue :=
  (⟨q.chunksHead.id, q.chunksHead.id + count, 0⟩,
    { q with chunksHead := { q.chunksHead with id := q.chunksHead.id + count } })

def writeChunk (q : Queue) (chunk : Bytes) (chunkKey : ℕ) (ok : Bool) : Except Error Queue :=
  q.put ⟨.chunk, chunkKey⟩ chunk false ok

def readChunk (q : Queue) (chunkKey : ℕ) (ok : Bool) : Except Error Bytes :=
  q.get ⟨.chunk, chunkKey⟩ ok

def eraseChunks (q : Queue) (header : Header) (ok : Bool) : Except Error Queue :=
  q.write header.chunkKeys ok

/-- The first of `path.0`, `path.1`, ... that is not taken. -/
def freshPath (path : Bytes) (taken : List Bytes) : Bytes :=
  let candidates := (List.range (taken.length + 1)).map fun i =>
    path ++ 46 :: (Nat.toDigits 10 i).map fun c => UInt8.ofNat c.toNat
  (candidates.find? (· ∉ taken)).getD path

/-- `destroy`, with the paths that exist. Closing the journal, renaming its
directory and reopening it keeps the contents. -/
def destroy (q : Queue) (taken : List Bytes) : Queue :=
  if q.destroyed then q
  else { q with path := freshPath q.path taken, destroyed := true }

theorem wakeUp_eq (q : Queue) :
    ∃ ws it, q.wakeUp = { q with waiters := ws, wakeUpIt := it } := by
  unfold wakeUp
  split
  · exact ⟨q.waiters, q.wakeUpIt, rfl⟩
  · exact ⟨_, _, rfl⟩

theorem compact_eq (q : Queue) : ∃ ranges, q.compact = { q with compacted := ranges } := by
  unfold compact
  split
  · exact ⟨q.compacted, rfl⟩
  · dsimp only
    split
    · exact ⟨_, rfl⟩
    · exact ⟨_, rfl⟩

theorem evict_eq (q : Queue) (size : ℕ) :
    ∃ n ranges, q.evict size = { q with bytesEvicted := n, compacted := ranges } := by
  unfold evict
  split
  · obtain ⟨ranges, h⟩ := compact_eq { q with bytesEvicted := q.bytesEvicted + size }
    exact ⟨0, ranges, by rw [h]⟩
  · exact ⟨q.bytesEvicted + size, q.compacted, rfl⟩

theorem put_ok {q q' : Queue} {key : Key} {value : Bytes} {sync ok : Bool}
    (h : q.put key value sync ok = .ok q') :
    q' = { q with journal := q.journal.write ⟨[.put key value], sync⟩ } := by
  unfold put at h
  split at h
  · exact (Except.ok.inj h).symm
  · cases h

theorem write_ok {q q' : Queue} {deletes : List Key} {ok : Bool}
    (h : q.write deletes ok = .ok q') :
    q' = { q with journal := q.journal.write ⟨deletes.map .delete, false⟩ } := by
  unfold write at h
  split at h
  · exact (Except.ok.inj h).symm
  · cases h

def pushed (q : Queue) (value : Bytes) (sync : Bool) : Queue :=
  { q with journal := q.journal.write ⟨[.put q.queueHead value], sync⟩
           queueHead := { q.queueHead with id := q.queueHead.id + 1 } }

theorem pushValue_ok {q q' : Queue} {value : Bytes} {sync ok : Bool} {id : ℕ}
    (h : q.pushValue value sync ok = .ok (id, q')) :
    id = q.queueHead.id ∧ q' = (q.pushed value sync).wakeUp := by
  cases ok with
  | false => cases h
  | true =>
    obtain ⟨rfl, rfl⟩ := Prod.mk.inj (Except.ok.inj h)
    exact ⟨rfl, rfl⟩

def poppedReturned (q : Queue) (id : ℕ) : Queue :=
  { q with returned := q.returned.erase id, itemsOpen := q.itemsOpen + 1 }

def poppedTail (q : Queue) : Queue :=
  { q with queueTail := { q.queueTail with id := q.queueTail.id + 1 }
           itemsOpen := q.itemsOpen + 1 }

theorem popBegin_some {q q' : Queue} {id : ℕ} (h : q.popBegin = some (id, q')) :
    (id ∈ q.returned ∧ (∀ m ∈ q.returned, id ≤ m) ∧ q' = q.poppedReturned id) ∨
    (q.returned = ∅ ∧ q.queueTail.id ≠ q.queueHead.id ∧ id = q.queueTail.id ∧
      q' = q.poppedTail) := by
  unfold popBegin at h
  split at h
  case h_1 m hm =>
    obtain ⟨rfl, rfl⟩ := Prod.mk.inj (Option.some.inj h)
    obtain ⟨mem, min⟩ := least_eq_some.mp hm
    exact .inl ⟨mem, min, rfl⟩
  case h_2 hm =>
    split at h
    · obtain ⟨rfl, rfl⟩ := Prod.mk.inj (Option.some.inj h)
      exact .inr ⟨least_eq_none.mp hm, by assumption, rfl, rfl⟩
    · cases h

theorem popBegin_none {q : Queue} :
    q.popBegin = none ↔ q.returned = ∅ ∧ q.queueTail.id = q.queueHead.id := by
  unfold popBegin
  split
  case h_1 m hm =>
    have mem := (least_eq_some.mp hm).1
    simp only [reduceCtorEq, false_iff, not_and]
    intro empty
    simp [empty] at mem
  case h_2 hm =>
    have empty := least_eq_none.mp hm
    by_cases same : q.queueTail.id = q.queueHead.id
    · simp [same, empty]
    · simp [same]

def erased (q : Queue) (id : ℕ) (header : Header) : Queue :=
  { q with journal := q.journal.write ⟨(itemKeys id header).map .delete, false⟩
           itemsOpen := q.itemsOpen - 1 }

theorem popEnd_erase {q q' : Queue} {id : ℕ} {header : Header} {ok : Bool}
    (h : q.popEnd true id header ok = .ok q') :
    ∃ n ranges, q' = { q.erased id header with bytesEvicted := n, compacted := ranges } := by
  cases ok with
  | false => cases h
  | true =>
    obtain ⟨n, ranges, he⟩ := evict_eq
      { q with journal := q.journal.write ⟨(itemKeys id header).map .delete, false⟩ } header.size
    refine ⟨n, ranges, ?_⟩
    rw [← Except.ok.inj h, erased, he]

def putBack (q : Queue) (id : ℕ) : Queue :=
  { q with returned := insert id q.returned, itemsOpen := q.itemsOpen - 1 }

theorem popEnd_return (q : Queue) (id : ℕ) (header : Header) (ok : Bool) :
    q.popEnd false id header ok = .ok (q.putBack id).wakeUp := by
  cases hw : q.wakeUpIt <;> simp [popEnd, putBack, wakeUp, hw]

end Queue

end Darner
