import Darner.Library.LabelledRuns
import Darner.QueueOwnership
import Mathlib.Data.List.Sort

/-! The queue is a FIFO with holding. The abstract queue knows the available
entries in push order and the entries that are held; the class `queue`, driven by
any interleaving of its methods, answers every call as the abstract queue does. -/

namespace Darner.QueueFifo
open OrderedStore LabelledRuns

structure Entry (β : Type) where
  number : ℕ
  value : β

structure Fifo (β : Type) where
  next : ℕ := 0
  available : List (Entry β) := []
  held : List (Entry β) := []

namespace Fifo

variable {β : Type}

def push (f : Fifo β) (value : β) : Fifo β :=
  { f with next := f.next + 1, available := f.available ++ [⟨f.next, value⟩] }

def pop (f : Fifo β) : Option (ℕ × Fifo β) :=
  match f.available with
  | [] => none
  | e :: rest => some (e.number, { f with available := rest, held := e :: f.held })

def forget (f : Fifo β) (number : ℕ) : Fifo β :=
  { f with held := f.held.filter (·.number ≠ number) }

def giveBack (f : Fifo β) (number : ℕ) : Fifo β :=
  match f.held.find? (·.number = number) with
  | none => f
  | some e =>
    { f with available := f.available.orderedInsert (fun a b => a.number ≤ b.number) e
             held := f.held.filter (·.number ≠ number) }

/-- What a FIFO keeps: push order, and no entry twice. -/
structure Valid (f : Fifo β) : Prop where
  ordered : (f.available.map Entry.number).Pairwise (· < ·)
  distinct : ((f.available ++ f.held).map Entry.number).Nodup
  numbered : ∀ e ∈ f.available ++ f.held, e.number < f.next

end Fifo

theorem pairwise_orderedInsert {β : Type} (e : Entry β) (entries : List (Entry β))
    (ordered : (entries.map Entry.number).Pairwise (· < ·))
    (fresh : e.number ∉ entries.map Entry.number) :
    ((entries.orderedInsert (fun a b => a.number ≤ b.number) e).map Entry.number).Pairwise
      (· < ·) := by
  induction entries with
  | nil => simp
  | cons x entries ih =>
    simp only [List.map_cons, List.pairwise_cons, List.mem_cons, not_or, List.mem_map,
      forall_exists_index, and_imp, forall_apply_eq_imp_iff₂] at ordered fresh
    by_cases before : e.number ≤ x.number
    · rw [List.orderedInsert_cons, if_pos before]
      have lt : e.number < x.number := by omega
      simp only [List.map_cons, List.pairwise_cons, List.mem_cons, List.mem_map,
        forall_eq_or_imp, forall_exists_index, and_imp, forall_apply_eq_imp_iff₂]
      exact ⟨⟨lt, fun y hy => lt.trans (ordered.1 y hy)⟩, ordered⟩
    · rw [List.orderedInsert_cons, if_neg before]
      have rest := ih ordered.2 (by simpa using fresh.2)
      simp only [List.map_cons, List.pairwise_cons, List.mem_map, forall_exists_index, and_imp,
        forall_apply_eq_imp_iff₂, List.mem_orderedInsert]
      refine ⟨?_, rest⟩
      rintro y (rfl | hy)
      · omega
      · exact ordered.1 y hy

structure Session where
  queue : Queue
  held : List ℕ

inductive Call where
  | push (item : Bytes) (stray : UInt8) (sync ok : Bool)
  | pushHeader (header : Header) (sync ok : Bool)
  | popBegin
  /-- Only a stream that holds `id` ends its pop. -/
  | popEnd (erase : Bool) (id : ℕ) (header : Header) (ok : Bool)
  | count
  | reserveChunks (count : ℕ)
  | writeChunk (chunk : Bytes) (chunkKey : ℕ) (ok : Bool)
  | eraseChunks (header : Header) (ok : Bool)

inductive Reply where
  | pushed (id : ℕ)
  | popped (id : Option ℕ)
  | ended
  | counted (count : ℕ)
  | threw (error : Error)
deriving DecidableEq

def Session.ofPush (s : Session) : Except Error (ℕ × Queue) → Session × Reply
  | .ok (id, q) => ({ s with queue := q }, .pushed id)
  | .error e => (s, .threw e)

def Session.ofChunk (s : Session) : Except Error Queue → Session × Reply
  | .ok q => ({ s with queue := q }, .ended)
  | .error e => (s, .threw e)

def Session.exec (s : Session) : Call → Session × Reply
  | .push item stray sync ok => s.ofPush (s.queue.push item stray sync ok)
  | .pushHeader header sync ok => s.ofPush (s.queue.pushHeader header sync ok)
  | .popBegin =>
    match s.queue.popBegin with
    | some (id, q) => (⟨q, id :: s.held⟩, .popped (some id))
    | none => (s, .popped none)
  | .popEnd erase id header ok =>
    if id ∈ s.held then
      match s.queue.popEnd erase id header ok with
      | .ok q => (⟨q, s.held.erase id⟩, .ended)
      | .error e => (s, .threw e)
    else (s, .ended)
  | .count => (s, .counted s.queue.count)
  | .reserveChunks count => ({ s with queue := (s.queue.reserveChunks count).2 }, .ended)
  | .writeChunk chunk chunkKey ok => s.ofChunk (s.queue.writeChunk chunk chunkKey ok)
  | .eraseChunks header ok => s.ofChunk (s.queue.eraseChunks header ok)

/-- The abstract queue on the same calls. A journal failure is an answer it gives
without doing anything. -/
def Fifo.exec (f : Fifo Bytes) : Call → Fifo Bytes × Reply
  | .push item stray _ ok =>
    if ok then (f.push (escape item stray), .pushed f.next) else (f, .threw .ioError)
  | .pushHeader header _ ok =>
    if ok then (f.push header.str, .pushed f.next) else (f, .threw .ioError)
  | .popBegin =>
    match f.pop with
    | some (number, f) => (f, .popped (some number))
    | none => (f, .popped none)
  | .popEnd erase id _ ok =>
    if id ∈ f.held.map Entry.number then
      if erase then
        if ok then (f.forget id, .ended) else (f, .threw .ioError)
      else (f.giveBack id, .ended)
    else (f, .ended)
  | .count => (f, .counted f.available.length)
  | .reserveChunks _ => (f, .ended)
  | .writeChunk _ _ ok => (f, if ok then .ended else .threw .ioError)
  | .eraseChunks _ ok => (f, if ok then .ended else .threw .ioError)

def Session.created (path : Bytes) : Session := ⟨.blank ∅ path, []⟩

/-- The abstract queue `f` describes the session `s`. -/
structure Describes (s : Session) (f : Fifo Bytes) : Prop where
  part : s.queue.Partition s.held
  next : f.next = s.queue.queueHead.id
  ordered : (f.available.map Entry.number).Pairwise (· < ·)
  available : ∀ id, id ∈ f.available.map Entry.number ↔ s.queue.Available id
  held : f.held.map Entry.number = s.held
  values : ∀ e ∈ f.available ++ f.held,
    s.queue.contents.lookup ⟨.queue, e.number⟩ = some e.value

namespace Describes

variable {s : Session} {f : Fifo Bytes}

theorem valid (h : Describes s f) : f.Valid where
  ordered := h.ordered
  distinct := by
    rw [List.map_append, List.nodup_append]
    refine ⟨h.ordered.imp (fun lt => Nat.ne_of_lt lt), ?_, ?_⟩
    · rw [h.held]
      exact h.part.held_nodup
    · intro id avail id' held same
      subst same
      rw [h.held] at held
      exact h.part.held_not_available held ((h.available id).mp avail)
  numbered := by
    intro e he
    rw [h.next]
    have tail := h.part.tail_le_head
    rcases List.mem_append.mp he with avail | held
    · rcases (h.available _).mp (List.mem_map_of_mem avail) with returned | range
      · have := h.part.returned_lt _ returned
        omega
      · exact range.2
    · have := h.part.held_lt e.number (h.held ▸ List.mem_map_of_mem held)
      omega

theorem count (h : Describes s f) : f.available.length = s.queue.count := by
  have distinct : (f.available.map Entry.number).Nodup :=
    h.ordered.imp (fun lt => Nat.ne_of_lt lt)
  have same : (f.available.map Entry.number).toFinset =
      s.queue.returned ∪ Finset.Ico s.queue.queueTail.id s.queue.queueHead.id := by
    ext id
    simpa [Queue.Available] using h.available id
  rw [← List.length_map Entry.number, ← List.toFinset_card_of_nodup distinct, same,
    h.part.card_available]

theorem sameItems (h : Describes s f) {q : Queue} (same : Queue.SameItems s.queue q) :
    Describes { s with queue := q } f where
  part := same.partition h.part
  next := by rw [same.head]; exact h.next
  ordered := h.ordered
  available id := (h.available id).trans (same.available id).symm
  held := h.held
  values e he := (same.entries e.number).trans (h.values e he)

theorem push (h : Describes s f) (value : Bytes) (sync : Bool) :
    Describes { s with queue := (s.queue.pushed value sync).wakeUp } (f.push value) := by
  refine sameItems (s := { s with queue := s.queue.pushed value sync }) ?_
    (Queue.sameItems_wakeUp _)
  have numbered := h.valid.numbered
  rw [h.next] at numbered
  have headKey : s.queue.queueHead = ⟨.queue, f.next⟩ := by
    rw [h.next, ← h.part.head_type]
  refine ⟨h.part.pushed value sync, ?_, ?_, ?_, h.held, ?_⟩
  · simp [Fifo.push, Queue.pushed, h.next]
  · simp only [Fifo.push, List.map_append, List.map_cons, List.map_nil, List.pairwise_append]
    refine ⟨h.ordered, List.pairwise_singleton _ _, ?_⟩
    intro id avail last isLast
    obtain ⟨e, he, rfl⟩ := List.mem_map.mp avail
    rw [List.mem_singleton.mp isLast, h.next]
    exact numbered e (List.mem_append_left _ he)
  · intro id
    rw [Queue.available_pushed h.part.toOwnership, ← h.available id, ← h.next]
    simp only [Fifo.push, List.map_append, List.map_cons, List.map_nil, List.mem_append,
      List.mem_singleton]
    exact Or.comm
  · intro e he
    rw [Queue.lookup_pushed, headKey]
    simp only [Fifo.push, List.mem_append, List.mem_singleton] at he
    rcases he with (avail | rfl) | held
    · have old : e ∈ f.available ++ f.held := List.mem_append_left _ avail
      have lt := numbered e old
      rw [if_neg (by simp [h.next]; omega), h.values e old]
    · simp
    · have old : e ∈ f.available ++ f.held := List.mem_append_right _ held
      have lt := numbered e old
      rw [if_neg (by simp [h.next]; omega), h.values e old]

theorem popBegin_none (h : Describes s f) : s.queue.popBegin = none ↔ f.available = [] := by
  have tail := h.part.tail_le_head
  rw [Queue.popBegin_none, List.eq_nil_iff_forall_not_mem]
  constructor
  · rintro ⟨empty, same⟩ e he
    rcases (h.available _).mp (List.mem_map_of_mem he) with returned | range
    · simp [empty] at returned
    · omega
  · intro none
    have nothing : ∀ id, ¬s.queue.Available id := by
      intro id avail
      obtain ⟨e, he, -⟩ := List.mem_map.mp ((h.available id).mpr avail)
      exact none e he
    constructor
    · exact Finset.eq_empty_of_forall_notMem fun id returned => nothing id (.inl returned)
    · have := nothing s.queue.queueTail.id
      simp only [Queue.Available, not_or, not_and] at this
      omega

theorem least_available (h : Describes s f) {e : Entry Bytes} {rest : List (Entry Bytes)}
    (front : f.available = e :: rest) {id : ℕ} (avail : s.queue.Available id)
    (least : ∀ m, s.queue.Available m → id ≤ m) : id = e.number := by
  have first : s.queue.Available e.number := by
    rw [← h.available, front]
    exact List.mem_cons_self
  have inList : id ∈ (e :: rest).map Entry.number := by
    rw [← front]
    exact (h.available id).mpr avail
  have ordered := h.ordered
  rw [front, List.map_cons, List.pairwise_cons] at ordered
  rcases List.mem_cons.mp inList with same | later
  · exact same
  · exact absurd (least _ first) (by have := ordered.1 id later; omega)

theorem popBegin_some (h : Describes s f) {id : ℕ} {q : Queue}
    (pop : s.queue.popBegin = some (id, q)) :
    ∃ e rest, f.available = e :: rest ∧ id = e.number ∧
      Describes ⟨q, id :: s.held⟩ { f with available := rest, held := e :: f.held } := by
  cases front : f.available with
  | nil => rw [h.popBegin_none.mpr front] at pop; cases pop
  | cons e rest =>
    have own := h.part.toOwnership
    have tail := own.tail_le_head
    have taken : s.queue.Available id ∧ (∀ m, s.queue.Available m → id ≤ m) ∧
        (∀ m, q.Available m ↔ m ≠ id ∧ s.queue.Available m) ∧
        q.queueHead = s.queue.queueHead ∧ q.contents = s.queue.contents := by
      rcases Queue.popBegin_some pop with ⟨returned, min, rfl⟩ | ⟨empty, ne, rfl, rfl⟩
      · refine ⟨.inl returned, ?_, Queue.available_poppedReturned own returned, rfl, rfl⟩
        rintro m (other | range)
        · exact min m other
        · have := own.returned_lt id returned
          omega
      · refine ⟨.inr (by omega), ?_, Queue.available_poppedTail own empty, rfl, rfl⟩
        rintro m (other | range)
        · simp [empty] at other
        · exact range.1
    obtain ⟨avail, least, after, head, contents⟩ := taken
    have same := h.least_available front avail least
    have ordered := h.ordered
    rw [front, List.map_cons, List.pairwise_cons] at ordered
    refine ⟨e, rest, rfl, same, h.part.popBegin pop, ?_, ordered.2, ?_, ?_, ?_⟩
    · rw [head]
      exact h.next
    · intro m
      rw [after, ← h.available, front, List.map_cons, List.mem_cons, same]
      constructor
      · intro mem
        exact ⟨fun eq => absurd (ordered.1 m mem) (by omega), .inr mem⟩
      · rintro ⟨ne, eq | mem⟩
        · exact absurd eq ne
        · exact mem
    · simp [same, h.held]
    · intro x hx
      rw [contents]
      apply h.values
      rw [front]
      simp only [List.mem_append, List.mem_cons] at hx ⊢
      tauto

theorem held_filter (h : Describes s f) (id : ℕ) :
    (f.held.filter (·.number ≠ id)).map Entry.number = s.held.erase id := by
  have same : (fun e : Entry Bytes => decide (e.number ≠ id)) = (· != id) ∘ Entry.number := by
    funext e
    simp [bne, Bool.beq_eq_decide_eq]
  rw [h.part.held_nodup.erase_eq_filter, ← h.held, List.filter_map, same]

theorem perm_erase {id : ℕ} (mem : id ∈ s.held) : s.held.Perm (id :: s.held.erase id) :=
  List.perm_cons_erase mem

theorem forget (h : Describes s f) {id : ℕ} (mem : id ∈ s.held) {header : Header} {ok : Bool}
    {q : Queue} (pop : s.queue.popEnd true id header ok = .ok q) :
    Describes ⟨q, s.held.erase id⟩ (f.forget id) := by
  have part := (h.part.perm (perm_erase mem)).popEnd pop
  obtain ⟨n, ranges, rfl⟩ := Queue.popEnd_erase pop
  refine ⟨part, h.next, h.ordered, h.available, h.held_filter id, ?_⟩
  intro e he
  have old : e ∈ f.available ++ f.held ∧ e.number ≠ id := by
    rcases List.mem_append.mp he with avail | held
    · refine ⟨List.mem_append_left _ avail, ?_⟩
      rintro rfl
      exact h.part.held_not_available mem ((h.available _).mp (List.mem_map_of_mem avail))
    · obtain ⟨held, ne⟩ := List.mem_filter.mp held
      exact ⟨List.mem_append_right _ held, by simpa using ne⟩
  have notKey : (⟨.queue, e.number⟩ : Key) ∉ Queue.itemKeys id header := by
    rw [Queue.queue_mem_itemKeys]
    exact old.2
  have kept := Queue.lookup_erased s.queue id header ⟨.queue, e.number⟩
  rw [if_neg notKey, h.values e old.1] at kept
  exact kept

theorem giveBack (h : Describes s f) {id : ℕ} (mem : id ∈ s.held) (header : Header) (ok : Bool) :
    ∃ q, s.queue.popEnd false id header ok = .ok q ∧
      Describes ⟨q, s.held.erase id⟩ (f.giveBack id) := by
  refine ⟨(s.queue.putBack id).wakeUp, Queue.popEnd_return _ _ _ _, ?_⟩
  have part := (h.part.perm (perm_erase mem)).popEnd
    (Queue.popEnd_return s.queue id header ok)
  obtain ⟨e, he, number⟩ : ∃ e ∈ f.held, e.number = id := by
    rw [← h.held] at mem
    simpa using mem
  obtain ⟨found, isFound⟩ : ∃ found, f.held.find? (·.number = id) = some found :=
    Option.isSome_iff_exists.mp (List.find?_isSome.mpr ⟨e, he, by simpa using number⟩)
  have foundHeld : found ∈ f.held := List.mem_of_find?_eq_some isFound
  have foundNumber : found.number = id := by simpa using List.find?_some isFound
  simp only [Fifo.giveBack, isFound]
  have same := Queue.sameItems_wakeUp (s.queue.putBack id)
  have notAvailable : found.number ∉ f.available.map Entry.number := by
    rw [foundNumber, h.available]
    exact h.part.held_not_available mem
  refine ⟨part, ?_, pairwise_orderedInsert found f.available h.ordered notAvailable, ?_,
    h.held_filter id, ?_⟩
  · rw [same.head]
    exact h.next
  · intro m
    rw [same.available, Queue.available_putBack, ← h.available]
    simp only [List.mem_map, List.mem_orderedInsert]
    constructor
    · rintro ⟨x, rfl | hx, rfl⟩
      · exact .inl foundNumber
      · exact .inr ⟨x, hx, rfl⟩
    · rintro (rfl | ⟨x, hx, rfl⟩)
      · exact ⟨found, .inl rfl, foundNumber⟩
      · exact ⟨x, .inr hx, rfl⟩
  · intro x hx
    rw [same.entries]
    apply h.values
    simp only [List.mem_append, List.mem_orderedInsert, List.mem_filter] at hx ⊢
    rcases hx with (rfl | avail) | ⟨held, -⟩
    · exact .inr foundHeld
    · exact .inl avail
    · exact .inr held

end Describes

theorem describes_created (path : Bytes) : Describes (Session.created path) {} where
  part := Queue.partition_blank path
  next := rfl
  ordered := List.Pairwise.nil
  available id := by simp [Session.created, Queue.blank, Queue.Available]
  held := rfl
  values := by simp

theorem exec_push {s : Session} {f : Fifo Bytes} (h : Describes s f) (value : Bytes)
    (sync ok : Bool) :
    let answer := if ok then (f.push value, Reply.pushed f.next) else (f, .threw .ioError)
    (s.ofPush (s.queue.pushValue value sync ok)).2 = answer.2 ∧
      Describes (s.ofPush (s.queue.pushValue value sync ok)).1 answer.1 := by
  cases ok with
  | false => exact ⟨rfl, h⟩
  | true =>
    refine ⟨?_, h.push value sync⟩
    change Reply.pushed s.queue.queueHead.id = _
    rw [← h.next]
    rfl

theorem exec_simulates (s : Session) (f : Fifo Bytes) (call : Call) (h : Describes s f) :
    (s.exec call).2 = (f.exec call).2 ∧ Describes (s.exec call).1 (f.exec call).1 := by
  cases call with
  | push item stray sync ok => exact exec_push h (escape item stray) sync ok
  | pushHeader header sync ok => exact exec_push h header.str sync ok
  | popBegin =>
    cases pop : s.queue.popBegin with
    | none =>
      have empty := h.popBegin_none.mp pop
      simp only [Session.exec, pop, Fifo.exec, Fifo.pop, empty]
      exact ⟨trivial, h⟩
    | some pair =>
      obtain ⟨id, q⟩ := pair
      obtain ⟨e, rest, front, number, next⟩ := h.popBegin_some pop
      simp only [Session.exec, pop, Fifo.exec, Fifo.pop, front, number]
      exact ⟨trivial, number ▸ next⟩
  | popEnd erase id header ok =>
    simp only [Session.exec, Fifo.exec, h.held]
    by_cases mem : id ∈ s.held
    · simp only [mem, if_true]
      cases erase with
      | true =>
        cases ok with
        | false => exact ⟨rfl, h⟩
        | true =>
          cases pop : s.queue.popEnd true id header true with
          | error e => cases pop
          | ok q => exact ⟨rfl, h.forget mem pop⟩
      | false =>
        obtain ⟨q, pop, next⟩ := h.giveBack mem header ok
        rw [pop]
        exact ⟨rfl, next⟩
    · simp only [mem, if_false]
      exact ⟨trivial, h⟩
  | count => exact ⟨by simp [Session.exec, Fifo.exec, h.count], h⟩
  | reserveChunks count => exact ⟨rfl, h.sameItems (Queue.sameItems_reserveChunks _ count)⟩
  | writeChunk chunk chunkKey ok =>
    cases ok with
    | false => exact ⟨rfl, h⟩
    | true =>
      have stored : s.queue.writeChunk chunk chunkKey true = .ok _ := rfl
      exact ⟨rfl, h.sameItems (Queue.sameItems_writeChunk stored)⟩
  | eraseChunks header ok =>
    cases ok with
    | false => exact ⟨rfl, h⟩
    | true =>
      have gone : s.queue.eraseChunks header true = .ok _ := rfl
      exact ⟨rfl, h.sameItems (Queue.sameItems_eraseChunks gone)⟩

/-- Every run of a queue that was created empty is a run of the abstract FIFO:
the same replies to the same calls, and at its end the available entries in push
order, the held entries, and under each entry's id the value its push stored. -/
theorem queue_refines_fifo (path : Bytes) (calls : List Call) :
    let s := finalState Session.exec (Session.created path) calls
    let f := finalState Fifo.exec {} calls
    replies Session.exec (Session.created path) calls = replies Fifo.exec {} calls ∧
    f.Valid ∧
    (∀ id, id ∈ f.available.map Entry.number ↔ s.queue.Available id) ∧
    f.held.map Entry.number = s.held ∧
    f.available.length = s.queue.count ∧
    ∀ e ∈ f.available ++ f.held, s.queue.contents.lookup ⟨.queue, e.number⟩ = some e.value := by
  obtain ⟨same, last⟩ := simulates exec_simulates (describes_created path) calls
  exact ⟨same, last.valid, last.available, last.held, last.count, last.values⟩

end Darner.QueueFifo
