import Darner.StoredItems

/-! The two cursors of a multi-chunk item. An oqstream writes the chunks of its
reservation one by one and then publishes the header; an iqstream that pops the
item later reads the same chunks one by one. Other streams may do anything in
between, since what they write and erase lies elsewhere. -/

namespace Darner.ChunkedItems
open OrderedStore LabelledRuns StreamMoves QueuePartition QueueRecovery ChunkLayout
open CrashConsistency StoredItems

def onIq : Act → Option ℕ
  | .iopen i | .iread i _ | .iclose i _ _ | .idestruct i => some i
  | _ => none

def onOq : Act → Option ℕ
  | .oopen i _ _ | .owrite i _ _ _ | .ocancel i _ | .odestruct i _ => some i
  | _ => none

theorem iqs_exec {p : Process} {act : Act} {j : ℕ} {s : IQStream} (other : onIq act ≠ some j)
    (row : p.iqs[j]? = some s) : (p.exec act).1.iqs[j]? = some s := by
  have bound := (List.getElem?_eq_some_iff.mp row).1
  cases act with
  | newIqstream =>
    simp only [Process.exec]
    rw [List.getElem?_append_left bound]
    exact row
  | iopen i | iread i io | iclose i erase ok | idestruct i =>
    have ne : i ≠ j := fun h => other (congrArg some h)
    cases hi : p.iqs[i]? with
    | none => simpa [Process.exec, Process.onIqstream, hi] using row
    | some t =>
      simp only [Process.exec, Process.onIqstream, hi]
      first
        | simpa [Process.setIqstream, List.getElem?_set_ne ne] using row
        | split <;> simpa [Process.setIqstream, List.getElem?_set_ne ne] using row
  | newOqstream => exact row
  | destroy taken => exact row
  | oopen i count sync | owrite i chunk stray io | ocancel i ok | odestruct i ok =>
    cases hi : p.oqs[i]? with
    | none => simpa [Process.exec, Process.onOqstream, hi] using row
    | some t =>
      simp only [Process.exec, Process.onOqstream, hi]
      first
        | exact row
        | split <;> exact row

def hide (p : Process) (i : ℕ) : Process := { p with oqs := p.oqs.set i {} }

theorem exec_hide {p : Process} {act : Act} {i : ℕ} (there : i < p.oqs.length)
    (other : onOq act ≠ some i) :
    (hide p i).exec act = (hide (p.exec act).1 i, (p.exec act).2) := by
  cases act with
  | newIqstream => rfl
  | newOqstream => simp [Process.exec, hide, List.set_append_left, there]
  | iopen j | iread j io | iclose j erase ok | idestruct j =>
    cases hj : p.iqs[j]? with
    | none => simp [Process.exec, Process.onIqstream, hide, hj]
    | some t =>
      simp only [Process.exec, Process.onIqstream, hide, hj]
      first
        | rfl
        | split <;> rfl
  | destroy taken => rfl
  | oopen j count sync | owrite j chunk stray io | odestruct j ok =>
    have ne : i ≠ j := fun h => other (congrArg some h.symm)
    cases hj : p.oqs[j]? with
    | none => simp [Process.exec, Process.onOqstream, hide, List.getElem?_set_ne ne, hj]
    | some t =>
      simp only [Process.exec, Process.onOqstream, hide, List.getElem?_set_ne ne, hj]
      simp [Process.setOqstream, List.set_comm _ _ ne]
  | ocancel j ok =>
    have ne : i ≠ j := fun h => other (congrArg some h.symm)
    cases hj : p.oqs[j]? with
    | none => simp [Process.exec, Process.onOqstream, hide, List.getElem?_set_ne ne, hj]
    | some t =>
      simp only [Process.exec, Process.onOqstream, hide, List.getElem?_set_ne ne, hj]
      cases hc : t.cancel p.queue ok with
      | error e => rfl
      | ok pair => simp [Process.setOqstream, List.set_comm _ _ ne]

theorem oqs_exec {p : Process} {act : Act} {i : ℕ} {s : OQStream} (other : onOq act ≠ some i)
    (row : p.oqs[i]? = some s) : (p.exec act).1.oqs[i]? = some s := by
  have bound := (List.getElem?_eq_some_iff.mp row).1
  cases act with
  | newOqstream =>
    simp only [Process.exec]
    rw [List.getElem?_append_left bound]
    exact row
  | oopen j count sync | owrite j chunk stray io | ocancel j ok | odestruct j ok =>
    have ne : j ≠ i := fun h => other (congrArg some h)
    cases hj : p.oqs[j]? with
    | none => simpa [Process.exec, Process.onOqstream, hj] using row
    | some t =>
      simp only [Process.exec, Process.onOqstream, hj]
      first
        | simpa [Process.setOqstream, List.getElem?_set_ne ne] using row
        | split <;> simpa [Process.setOqstream, List.getElem?_set_ne ne] using row
  | newIqstream => exact row
  | destroy taken => exact row
  | iopen j | iread j io | iclose j erase ok | idestruct j =>
    cases hj : p.iqs[j]? with
    | none => simpa [Process.exec, Process.onIqstream, hj] using row
    | some t =>
      simp only [Process.exec, Process.onIqstream, hj]
      first
        | exact row
        | split <;> exact row

theorem config_hide {p : Process} {i : ℕ} {s : OQStream} (row : p.oqs[i]? = some s)
    (isOpen : s.queue.isSome) :
    (config p).writers.Perm (s :: (config (hide p i)).writers) := by
  obtain ⟨rest, before, after⟩ := view_set writer row
  have hidden := after {}
  rw [writer_closed rfl] at hidden
  rw [writer_open isOpen] at before
  exact before.trans (hidden.symm.cons s)

def beside (s : OQStream) (c : Config) : Config := ⟨c.queue, c.readers, s :: c.writers⟩

theorem moves_beside {bounded : ℕ → Prop} {solid : Bytes → Prop} (s : OQStream) {c c' : Config}
    (move : Move bounded solid c c') : Moves bounded solid (beside s c) (beside s c') := by
  have swap : ∀ {q : Queue} {readers : List IQStream} {t : OQStream} {writers : List OQStream},
      Move bounded solid ⟨q, readers, s :: t :: writers⟩ ⟨q, readers, t :: s :: writers⟩ :=
    fun {_ _ t writers} => .perm (.refl _) (.swap t s writers)
  have swap' : ∀ {q : Queue} {readers : List IQStream} {t : OQStream} {writers : List OQStream},
      Move bounded solid ⟨q, readers, t :: s :: writers⟩ ⟨q, readers, s :: t :: writers⟩ :=
    fun {_ _ t writers} => .perm (.refl _) (.swap s t writers)
  cases move with
  | perm left right => exact .single (.perm left (right.cons s))
  | popBegin address h => exact .single (.popBegin address h)
  | read isOpen io => exact .single (.read isOpen io)
  | popEnd h => exact .single (.popEnd h)
  | openSingle header pos => exact .tail (.single (.openSingle header pos)) swap'
  | openMulti several fits header pos =>
    exact .tail (.single (.openMulti several fits header pos)) swap'
  | pushItem single h => exact .tail (.tail (.single swap) (.pushItem single h)) swap'
  | writeChunk multi unfinished full h =>
    exact .tail (.tail (.single swap) (.writeChunk multi unfinished full h)) swap'
  | publish multi finished fits h =>
    exact .tail (.single swap) (.publish multi finished fits h)
  | cancel multi h => exact .tail (.single swap) (.cancel multi h)
  | drop => exact .tail (.single swap) .drop
  | destroy taken => exact .single (.destroy taken)

theorem consistent_beside {s : OQStream} {c : Config} (h : Consistent (beside s c)) :
    Consistent c :=
  ⟨h.own, h.images, h.fresh, h.layout.drop⟩

theorem moves_reserved {s : OQStream} {c c' : Config} (moves : Moves (· < wordSize) (fun _ => True) c c')
    (cons : Consistent (beside s c)) :
    Consistent (beside s c') ∧ ∀ n ∈ s.reserved,
      c'.queue.contents.lookup ⟨.chunk, n⟩ = c.queue.contents.lookup ⟨.chunk, n⟩ := by
  induction moves with
  | refl => exact ⟨cons, fun _ _ => rfl⟩
  | @tail d d' _ last ih =>
    obtain ⟨mid, same⟩ := ih
    refine ⟨(moves_beside s last).invariant move_consistent mid, fun n hn => ?_⟩
    rw [← same n hn]
    have apart := (List.pairwise_cons.mp mid.layout.apart).1
    rcases move_chunks (consistent_beside mid) last n with eq | ⟨t, mem, taken⟩ | ⟨id, header, stored, mem, -⟩
    · exact eq
    · exact absurd taken (Finset.disjoint_left.mp (apart t mem) hn)
    · exact absurd mem (Finset.disjoint_left.mp (mid.layout.clear s List.mem_cons_self stored) hn)

theorem exec_reserved {p : Process} {act : Act} {i : ℕ} {s : OQStream}
    (cons : Consistent (config p)) (row : p.oqs[i]? = some s) (isOpen : s.queue.isSome)
    (other : onOq act ≠ some i) (fits : (p.exec act).1.Fits) (n : ℕ) (mem : n ∈ s.reserved) :
    (p.exec act).1.queue.contents.lookup ⟨.chunk, n⟩ = p.queue.contents.lookup ⟨.chunk, n⟩ := by
  have bound := (List.getElem?_eq_some_iff.mp row).1
  have hidden := exec_hide bound other
  have fits' : ((hide p i).exec act).1.Fits := by
    rw [hidden]
    refine ⟨fits.head, fits.chunks, fun t ht => ?_⟩
    rcases List.mem_or_eq_of_mem_set ht with old | rfl
    · exact fits.sizes t old
    · exact Nat.two_pow_pos 64
  have moves : Moves (· < wordSize) (fun _ => True) (config (hide p i)) (config ((hide p i).exec act).1) :=
    exec_moves (hide p i) act ⟨fits'.chunks, fits'.sizes⟩
  have watched : Consistent (beside s (config (hide p i))) :=
    ⟨cons.own, cons.images, cons.fresh, cons.layout.perm (.refl _) (config_hide row isOpen)⟩
  have same := (moves_reserved moves watched).2 n mem
  rw [hidden] at same
  exact same

/-! The writer. -/

def total (chunks : List Bytes) : ℕ := (chunks.map List.length).sum

theorem total_snoc (chunks : List Bytes) (chunk : Bytes) :
    total (chunks ++ [chunk]) = total chunks + chunk.length := by
  simp [total]

def written (i : ℕ) : Process.Event → List Bytes
  | .act (.owrite j chunk _ _) .done => if j = i then [chunk] else []
  | _ => []

def abandons (i : ℕ) : Process.Event → Bool
  | .act (.ocancel j _) _ | .act (.odestruct j _) _ => j = i
  | .act _ _ => false
  | .crash _ => true

/-- The oqstream at `i` is on a push of `k` chunks and has written `past`. When the
last chunk is stored and the header is not, the stream stays open but takes no more. -/
structure Writing (i beg k : ℕ) (past : List Bytes) (p : Process) (s : OQStream) : Prop where
  row : p.oqs[i]? = some s
  isOpen : s.queue.isSome
  beg_eq : s.header.beg = beg
  end_eq : s.header.end_ = beg + k
  cursor : s.chunkPos = beg + k ∨
    (s.chunkPos = beg + past.length ∧ s.header.size = total past ∧
      Chunks p.queue.contents beg past)

variable {i j beg k : ℕ} {past : List Bytes}

theorem Writing.other {p : Process} {act : Act} {s : OQStream} (cons : Consistent (config p))
    (h : Writing i beg k past p s) (several : 2 ≤ k) (left : past.length < k)
    (away : onOq act ≠ some i) (fits : (p.exec act).1.Fits) :
    Writing i beg k past (p.exec act).1 s := by
  refine { h with row := oqs_exec away h.row, cursor := h.cursor.imp_right ?_ }
  rintro ⟨pos, size, chunks⟩
  refine ⟨pos, size, fun n chunk hn => ?_⟩
  have inside : beg + n ∈ s.reserved := by
    have := (List.getElem?_eq_some_iff.mp hn).1
    rw [OQStream.reserved_multi (by rw [h.end_eq]; omega), Header.range, Finset.mem_Ico,
      h.beg_eq, h.end_eq]
    omega
  rw [exec_reserved cons h.row h.isOpen away fits _ inside]
  exact chunks n chunk hn

theorem Writing.reopen {p : Process} {s : OQStream} {count : ℕ} {sync : Bool}
    (h : Writing i beg k past p s) : (p.exec (.oopen i count sync)).1 = p := by
  have same : p.oqs.set i s = p.oqs := by
    obtain ⟨bound, rfl⟩ := List.getElem?_eq_some_iff.mp h.row
    exact List.set_getElem_self bound
  simp [Process.exec, Process.onOqstream, h.row, OQStream.open_, h.isOpen, Process.setOqstream, same]

theorem exec_owrite {p : Process} {s : OQStream} {chunk : Bytes} {stray : UInt8} {io : Io}
    (row : p.oqs[i]? = some s) :
    p.exec (.owrite i chunk stray io) =
      (p.setOqstream i (s.write p.queue chunk stray io).2.1 (s.write p.queue chunk stray io).2.2,
        .ofWrite (s.write p.queue chunk stray io).1) := by
  simp only [Process.exec, Process.onOqstream, row]

theorem row_setOqstream {p : Process} {s s' : OQStream} {q : Queue} (row : p.oqs[i]? = some s) :
    (p.setOqstream i s' q).oqs[i]? = some s' := by
  have bound := (List.getElem?_eq_some_iff.mp row).1
  simp [Process.setOqstream, bound]

def withChunk (q : Queue) (n : ℕ) (chunk : Bytes) : Queue :=
  { q with journal := q.journal.write ⟨[.put ⟨.chunk, n⟩ chunk], false⟩ }

theorem contents_withChunk (q : Queue) (n : ℕ) (chunk : Bytes) :
    (withChunk q n chunk).contents = q.contents.insert ⟨.chunk, n⟩ chunk := by
  simp only [Queue.contents, withChunk, Journal.contents_write, apply_put]

theorem Writing.write {p : Process} {s : OQStream} (h : Writing i beg k past p s)
    (several : 2 ≤ k) (left : past.length < k) (chunk : Bytes) (stray : UInt8) (io : Io) :
    (∃ e, s.write p.queue chunk stray io = (.error e, s, p.queue)) ∨
    (s.chunkPos = beg + past.length ∧ s.header.size = total past ∧
      Chunks p.queue.contents beg past ∧
      let q₁ := withChunk p.queue (beg + past.length) chunk
      ((past.length + 1 < k ∧
        s.write p.queue chunk stray io = (.ok (), s.advance chunk.length, q₁)) ∨
      (past.length + 1 = k ∧ ∃ e,
        s.write p.queue chunk stray io = (.error e, s.advance chunk.length, q₁)) ∨
      (past.length + 1 = k ∧ ∃ id q₂, q₁.pushHeader (s.advance chunk.length).header s.sync (io 1) =
          .ok (id, q₂) ∧
        s.write p.queue chunk stray io =
          (.ok (), { s.advance chunk.length with id := id, queue := none }, q₂)))) := by
  have multi : s.header.end_ > 1 := by rw [h.end_eq]; omega
  rcases s.write_cases p.queue chunk stray io with
    ⟨-, eof⟩ | ⟨-, unfinished, ⟨e, -, failed⟩ | ⟨s₁, q₁, stored, written⟩⟩
  · exact .inl ⟨_, eof⟩
  · exact .inl ⟨_, failed⟩
  · rcases h.cursor with stuck | ⟨pos, size, chunks⟩
    · rw [h.end_eq] at unfinished
      exact absurd stuck unfinished
    rcases OQStream.store_ok stored with ⟨single, -⟩ | ⟨-, put, same⟩
    · omega
    rw [same] at written
    rw [pos] at put
    obtain rfl : q₁ = withChunk p.queue (beg + past.length) chunk := Queue.put_ok put
    refine .inr ⟨pos, size, chunks, ?_⟩
    have next : (s.advance chunk.length).chunkPos = beg + (past.length + 1) := by
      simp only [OQStream.advance, pos, Nat.add_assoc]
    have stop : (s.advance chunk.length).header.end_ = beg + k := h.end_eq
    rw [written]
    rcases (s.advance chunk.length).finish_cases _ (io 1) with
      ⟨more, same⟩ | ⟨-, single, -⟩ | ⟨finished, -, ⟨e, failed⟩ | ⟨id, q₂, push, same⟩⟩
    · rw [next, stop] at more
      exact .inl ⟨by omega, same⟩
    · omega
    · rw [next, stop] at finished
      exact .inr (.inl ⟨by omega, e, failed⟩)
    · rw [next, stop] at finished
      exact .inr (.inr ⟨by omega, id, q₂, push, same⟩)

theorem written_other {act : Act} {outcome : Outcome} (away : onOq act ≠ some i) :
    written i (.act act outcome) = [] := by
  cases act with
  | owrite j chunk stray io =>
    have ne : j ≠ i := fun h => away (congrArg some h)
    cases outcome <;> simp [written, ne]
  | _ => rfl

theorem step_writing (several : 2 ≤ k) (past : List Bytes) (p : Process) (e : Process.Event)
    (p' : Process) (stays : abandons i e = false)
    (h : Consistent (config p) ∧ (past.length < k → ∃ s, Writing i beg k past p s))
    (step : Process.Step p e p') :
    Consistent (config p') ∧ ((past ++ written i e).length < k →
      ∃ s, Writing i beg k (past ++ written i e) p' s) := by
  obtain ⟨cons, writing⟩ := h
  refine ⟨step_consistent p e p' cons step, fun left => ?_⟩
  have before : past.length < k := by
    rw [List.length_append] at left
    omega
  obtain ⟨s, on⟩ := writing before
  cases step with
  | crash reopen fresh => simp [abandons] at stays
  | @act _ act outcome run fits =>
    have next : p' = (p.exec act).1 := by rw [run]
    have answer : outcome = (p.exec act).2 := by rw [run]
    by_cases away : onOq act ≠ some i
    · rw [written_other away, List.append_nil, next]
      rw [next] at fits
      exact ⟨s, on.other cons several before away fits⟩
    rw [not_not] at away
    cases act with
    | newIqstream | newOqstream | iopen j | iread j io | iclose j erase ok | idestruct j
    | destroy taken => cases away
    | ocancel j ok | odestruct j ok =>
      obtain rfl := Option.some.inj away
      simp [abandons] at stays
    | oopen j count sync =>
      obtain rfl := Option.some.inj away
      rw [next, on.reopen]
      exact ⟨s, by simpa [written] using on⟩
    | owrite j chunk stray io =>
      obtain rfl := Option.some.inj away
      have bound := (List.getElem?_eq_some_iff.mp on.row).1
      rw [exec_owrite on.row] at next answer
      simp only at next answer
      rcases on.write several before chunk stray io with
        ⟨error, same⟩ | ⟨pos, size, chunks, ⟨-, same⟩ | ⟨last, error, same⟩ | ⟨last, id, q₂, -, same⟩⟩
      · rw [same] at next answer
        have none : written j (.act (.owrite j chunk stray io) outcome) = [] := by
          rw [answer]
          rfl
        rw [none, List.append_nil, next]
        exact ⟨s, { on with row := row_setOqstream on.row }⟩
      · rw [same] at next answer
        have one : written j (.act (.owrite j chunk stray io) outcome) = [chunk] := by
          rw [answer]
          simp [written, Outcome.ofWrite]
        rw [one, next]
        refine ⟨s.advance chunk.length, row_setOqstream on.row, on.isOpen, on.beg_eq, on.end_eq,
          .inr ⟨?_, ?_, ?_⟩⟩
        · simp only [OQStream.advance, pos, List.length_append, List.length_singleton, Nat.add_assoc]
        · simp only [OQStream.advance, size, total_snoc]
        · simp only [Process.setOqstream, contents_withChunk]
          exact chunks.snoc chunk
      · rw [same] at next answer
        have none : written j (.act (.owrite j chunk stray io) outcome) = [] := by
          rw [answer]
          rfl
        rw [none, List.append_nil, next]
        refine ⟨s.advance chunk.length, row_setOqstream on.row, on.isOpen, on.beg_eq, on.end_eq,
          .inl ?_⟩
        simp only [OQStream.advance, pos]
        omega
      · rw [same] at answer
        rw [answer] at left
        simp [written, Outcome.ofWrite] at left
        omega

theorem Writing.fits {p : Process} {s : OQStream} (cons : Consistent (config p))
    (h : Writing i beg k past p s) (several : 2 ≤ k) : beg + k < wordSize := by
  have mem : s ∈ (config p).writers := by
    apply List.mem_filterMap.mpr
    exact ⟨s, List.mem_of_getElem? h.row, writer_open h.isOpen⟩
  have own := cons.layout.unfinished s mem (by rw [h.end_eq]; omega)
  have := own.reserved
  have := cons.layout.small
  have := h.end_eq
  omega

theorem Writing.publish {p p' : Process} {s : OQStream} {last : Bytes} {stray : UInt8} {io : Io}
    (cons : Consistent (config p)) (h : Writing i beg k past p s) (several : 2 ≤ k)
    (left : past.length + 1 = k)
    (step : Process.Step p (.act (.owrite i last stray io) .done) p') :
    let header : Header := ⟨beg, beg + k, total (past ++ [last])⟩
    (∃ s', p'.oqs[i]? = some s' ∧ s'.id = p.queue.queueHead.id) ∧ header.Fits ∧
      p'.queue.Available p.queue.queueHead.id ∧
      Whole p.queue.queueHead.id header (past ++ [last]) (config p') := by
  intro header
  have cons' := step_consistent _ _ _ cons step
  have word := h.fits cons several
  cases step with
  | act run fits =>
    rw [exec_owrite h.row] at run
    obtain ⟨next, answer⟩ := Prod.mk.inj run
    rcases h.write several (by omega) last stray io with
      ⟨error, same⟩ | ⟨pos, size, chunks, ⟨more, -⟩ | ⟨-, error, same⟩ | ⟨-, id, q₂, push, same⟩⟩
    · rw [same] at answer
      cases answer
    · omega
    · rw [same] at answer
      cases answer
    rw [same] at next
    have stored : (s.advance last.length).header = header := by
      simp only [OQStream.advance, size, header, total_snoc, h.beg_eq, h.end_eq]
    have row : p'.oqs[i]? = some { s.advance last.length with id := id, queue := none } := by
      rw [← next]
      exact row_setOqstream h.row
    have small : header.size < wordSize := by
      have bound := fits.sizes _ (List.mem_of_getElem? row)
      rw [← stored]
      exact bound
    have sameItems : Queue.SameItems p.queue (withChunk p.queue (beg + past.length) last) := by
      have put : p.queue.writeChunk last (beg + past.length) true = .ok _ := rfl
      exact Queue.sameItems_writeChunk put
    have own := sameItems.ownership cons.own
    rw [stored] at push
    obtain ⟨rfl, rfl⟩ := Queue.pushValue_ok push
    have queue : p'.queue = ((withChunk p.queue (beg + past.length) last).pushed
        header.str s.sync).wakeUp := by rw [← next]; rfl
    have contents : p'.queue.contents = (p.queue.contents.insert ⟨.chunk, beg + past.length⟩
        last).insert ⟨.queue, p.queue.queueHead.id⟩ header.str := by
      rw [queue, contents_pushed own.head_type, contents_withChunk]
      rfl
    refine ⟨⟨_, row, rfl⟩, ⟨by simp only [header]; omega, word, small⟩, ?_, ?_⟩
    · rw [queue, (Queue.sameItems_wakeUp _).available, Queue.available_pushed own]
      exact .inl rfl
    · refine ⟨⟨cons'.own, ?_, fun _ => ?_⟩, fun _ => ?_⟩
      · simp only [config, queue, (Queue.sameItems_wakeUp _).head, Queue.pushed, withChunk]
        omega
      · simp only [config, contents]
        simp
      · simp only [config, contents]
        intro n chunk hn
        rw [Layout.lookup_chunk_insert_queue]
        exact chunks.snoc last n chunk hn

/-! The reader. -/

section Reader

variable {id : ℕ} {header : Header} {chunks : List Bytes} {q : Queue}

/-- An iqstream that holds the item and has read `past` of its chunks. It knows
the header once it has read the entry, also when the chunk could not be read. -/
structure Cursor (id : ℕ) (header : Header) (chunks past : List Bytes) (s : IQStream) : Prop where
  isOpen : s.queue.isSome
  id_eq : s.id = id
  done : past = chunks.take past.length
  tell_eq : s.tell = total past
  cursor : (s.header = {} ∧ s.chunkPos = 0 ∧ past = []) ∨
    (s.header = header ∧ s.chunkPos = header.beg + past.length)

/-- What the journal holds of a whole item. -/
structure Stores (q : Queue) (id : ℕ) (header : Header) (chunks : List Bytes) : Prop where
  fits : header.Fits
  several : 2 ≤ chunks.length
  count : header.end_ = header.beg + chunks.length
  entry : q.contents.lookup ⟨.queue, id⟩ = some header.str
  chunks : Chunks q.contents header.beg chunks

theorem readEntry_header {s : IQStream} {value : Bytes}
    (entry : q.contents.lookup ⟨.queue, s.id⟩ = some value)
    (stored : Stored.ofValue value = .header header) (multi : header.end_ > 1) (ok : Bool) :
    s.readEntry q ok = if ok then (.ok value, { s with header := header, chunkPos := header.beg })
      else (.error .ioError, s) := by
  unfold IQStream.readEntry Queue.popRead Queue.get
  rw [entry]
  cases ok with
  | false => rfl
  | true => simp [stored, multi]

theorem readEntry_stores {s : IQStream} (st : Stores q id header chunks) (same : s.id = id)
    (ok : Bool) :
    s.readEntry q ok = if ok then (.ok header.str, { s with header := header, chunkPos := header.beg })
      else (.error .ioError, s) := by
  have multi : header.end_ > 1 := by
    have := st.several
    have := st.count
    omega
  subst same
  exact readEntry_header st.entry (Stored.ofValue_str st.fits) multi ok

theorem readChunk_stores {s : IQStream} (st : Stores q id header chunks)
    (known : s.header = header) {n : ℕ} (pos : s.chunkPos = header.beg + n) {chunk : Bytes}
    (hn : chunks[n]? = some chunk) (result : Bytes) (ok : Bool) :
    s.readChunk q result ok =
      if ok then (.ok chunk, { s with chunkPos := s.chunkPos + 1, tell := s.tell + chunk.length })
      else (.error .ioError, s) := by
  have multi : s.header.end_ > 1 := by
    have := st.several
    have := st.count
    rw [known]
    omega
  unfold IQStream.readChunk Queue.readChunk Queue.get
  rw [if_pos multi, pos, st.chunks n chunk hn]
  cases ok with
  | false => rfl
  | true => rfl

theorem Cursor.length_le {past : List Bytes} {s : IQStream} (h : Cursor id header chunks past s) :
    past.length ≤ chunks.length := by
  have done := congrArg List.length h.done
  rw [List.length_take] at done
  omega

theorem Cursor.next {past : List Bytes} {s : IQStream} (h : Cursor id header chunks past s)
    {chunk : Bytes} (hn : chunks[past.length]? = some chunk) :
    past ++ [chunk] = chunks.take (past ++ [chunk]).length := by
  obtain ⟨bound, get⟩ := List.getElem?_eq_some_iff.mp hn
  rw [List.length_append, List.length_singleton, List.take_add_one, hn, ← h.done]
  rfl

theorem Cursor.readChunk {past : List Bytes} {s : IQStream} (h : Cursor id header chunks past s)
    (st : Stores q id header chunks) (known : s.header = header)
    (pos : s.chunkPos = header.beg + past.length) {chunk : Bytes}
    (hn : chunks[past.length]? = some chunk) (result : Bytes) (ok : Bool) :
    (ok = false ∧ s.readChunk q result ok = (.error .ioError, s)) ∨
    ∃ s', s.readChunk q result ok = (.ok chunk, s') ∧
      Cursor id header chunks (past ++ [chunk]) s' := by
  have read := readChunk_stores st known pos hn result ok
  cases ok with
  | false => exact .inl ⟨rfl, read⟩
  | true =>
    refine .inr ⟨_, read, h.isOpen, h.id_eq, h.next hn, ?_, .inr ⟨known, ?_⟩⟩
    · simp only [h.tell_eq, total_snoc]
    · simp only [pos, List.length_append, List.length_singleton, Nat.add_assoc]

theorem Cursor.read {past : List Bytes} {s : IQStream} (h : Cursor id header chunks past s)
    (st : Stores q id header chunks) (io : Io) :
    (past.length = chunks.length ∧ s.read q io = (.error .eof, s)) ∨
    ∃ chunk, chunks[past.length]? = some chunk ∧
      ((¬(∀ m, io m = true) ∧ ∃ s', s.read q io = (.error .ioError, s') ∧
        Cursor id header chunks past s') ∨
      ∃ s', s.read q io = (.ok chunk, s') ∧ Cursor id header chunks (past ++ [chunk]) s') := by
  have several := st.several
  have count := st.count
  have isOpen : ¬s.queue.isNone := by
    have := h.isOpen
    cases hq : s.queue <;> simp_all
  by_cases finished : past.length = chunks.length
  · left
    refine ⟨finished, ?_⟩
    rcases h.cursor with ⟨-, -, none⟩ | ⟨known, pos⟩
    · rw [none] at finished
      simp only [List.length_nil] at finished
      omega
    · rw [IQStream.read, if_pos (.inr (by rw [known, pos]; omega))]
  right
  have le := h.length_le
  have bound : past.length < chunks.length := by omega
  obtain ⟨chunk, hn⟩ : ∃ chunk, chunks[past.length]? = some chunk :=
    ⟨_, List.getElem?_eq_getElem bound⟩
  refine ⟨chunk, hn, ?_⟩
  have unfinished : ¬(s.queue.isNone ∨ s.chunkPos ≥ s.header.end_) := by
    rintro (closed | beyond)
    · exact isOpen closed
    · rcases h.cursor with ⟨none, zero, -⟩ | ⟨known, pos⟩
      · rw [none, zero] at beyond
        simp at beyond
      · rw [known, pos] at beyond
        omega
  rw [IQStream.read, if_neg unfinished]
  by_cases first : s.chunkPos = 0
  · -- the entry is fetched again when the range begins at chunk 0 and its first read failed
    have empty : past = [] := by
      rcases h.cursor with ⟨-, -, none⟩ | ⟨-, pos⟩
      · exact none
      · apply List.length_eq_zero_iff.mp
        omega
    rw [if_pos first, readEntry_stores st h.id_eq]
    cases hio : io 0 with
    | false =>
      left
      exact ⟨fun all => by simp [all 0] at hio, s, rfl, h⟩
    | true =>
      have learnt : Cursor id header chunks past { s with header := header, chunkPos := header.beg } :=
        { h with cursor := .inr ⟨rfl, by simp [empty]⟩ }
      have pos : header.beg = header.beg + past.length := by simp [empty]
      rcases learnt.readChunk st rfl pos hn header.str (io 1) with ⟨failed, same⟩ | ⟨s', same, next⟩
      · exact .inl ⟨fun all => by simp [all 1] at failed, _, same, learnt⟩
      · exact .inr ⟨s', same, next⟩
  · rw [if_neg first]
    rcases h.cursor with ⟨-, zero, -⟩ | ⟨known, pos⟩
    · exact absurd zero first
    rcases h.readChunk st known pos hn [] (io 1) with ⟨failed, same⟩ | ⟨s', same, next⟩
    · exact .inl ⟨fun all => by simp [all 1] at failed, s, same, h⟩
    · exact .inr ⟨s', same, next⟩

def readBy (j : ℕ) : Process.Event → List Bytes
  | .act (.iread i _) (.chunk bytes) => if i = j then [bytes] else []
  | _ => []

def releases (j : ℕ) : Process.Event → Bool
  | .act (.iclose i _ _) .done | .act (.idestruct i) _ => i = j
  | .act _ _ => false
  | .crash _ => true

theorem step_whole (fits : header.Fits) (count : header.end_ = header.beg + chunks.length)
    (p : Process) (e : Process.Event) (p' : Process) (act : e.isAct)
    (h : Consistent (config p) ∧ Whole id header chunks (config p))
    (step : Process.Step p e p') : Consistent (config p') ∧ Whole id header chunks (config p') := by
  cases step with
  | crash reopen fresh => cases act
  | @act _ call outcome run small =>
    have next : p' = (p.exec call).1 := by rw [run]
    rw [next] at small ⊢
    have moves : Moves (· < wordSize) (fun _ => True) (config p) (config (p.exec call).1) :=
      exec_moves p call ⟨small.chunks, small.sizes⟩
    exact moves.invariant (move_whole fits count) h

theorem held_of_cursor {p : Process} {past : List Bytes} {s : IQStream} (row : p.iqs[j]? = some s)
    (h : Cursor id header chunks past s) : (config p).queue.Owned (heldIds (config p)) id := by
  right
  rw [← h.id_eq]
  apply List.mem_map_of_mem
  exact List.mem_filterMap.mpr ⟨s, List.mem_of_getElem? row, reader_open h.isOpen⟩

theorem Whole.stores {c : Config} (whole : Whole id header chunks c) (fits : header.Fits)
    (several : 2 ≤ chunks.length) (count : header.end_ = header.beg + chunks.length)
    (owned : c.queue.Owned (heldIds c) id) : Stores c.queue id header chunks :=
  ⟨fits, several, count, whole.records.entry owned, whole.chunks owned⟩

theorem readBy_other {act : Act} {outcome : Outcome} (away : onIq act ≠ some j) :
    readBy j (.act act outcome) = [] := by
  cases act with
  | iread i io =>
    have ne : i ≠ j := fun h => away (congrArg some h)
    cases outcome <;> simp [readBy, ne]
  | _ => rfl

theorem row_setIqstream {p : Process} {s s' : IQStream} {q : Queue} (row : p.iqs[j]? = some s) :
    (p.setIqstream j s' q).iqs[j]? = some s' := by
  have bound := (List.getElem?_eq_some_iff.mp row).1
  simp [Process.setIqstream, bound]

theorem exec_iread {p : Process} {s : IQStream} (io : Io) (row : p.iqs[j]? = some s) :
    p.exec (.iread j io) =
      (p.setIqstream j (s.read p.queue io).2 p.queue, .ofRead (s.read p.queue io).1) := by
  simp only [Process.exec, Process.onIqstream, row]

theorem isAct_of_keeps {e : Process.Event} (keeps : releases j e = false) : e.isAct := by
  cases e with
  | act call outcome => rfl
  | crash writes => simp [releases] at keeps

theorem iqs_step {p p' : Process} {e : Process.Event} {s : IQStream}
    (step : Process.Step p e p') (keeps : releases j e = false) (row : p.iqs[j]? = some s)
    (isOpen : s.queue.isSome) :
    (p'.iqs[j]? = some s ∧ readBy j e = [] ∧ ∀ io outcome, e ≠ .act (.iread j io) outcome) ∨
    ∃ io, e = .act (.iread j io) (.ofRead (s.read p.queue io).1) ∧
      p'.iqs[j]? = some (s.read p.queue io).2 := by
  cases step with
  | crash reopen fresh => simp [releases] at keeps
  | @act _ act outcome run small =>
    have next : p' = (p.exec act).1 := by rw [run]
    have answer : outcome = (p.exec act).2 := by rw [run]
    by_cases away : onIq act ≠ some j
    · refine .inl ⟨by rw [next]; exact iqs_exec away row, readBy_other away, ?_⟩
      rintro io result same
      rw [(Process.Event.act.inj same).1] at away
      exact away rfl
    rw [not_not] at away
    cases act with
    | newIqstream | newOqstream | oopen i n sync | owrite i chunk stray io | ocancel i ok
    | odestruct i ok | destroy taken => cases away
    | idestruct i =>
      obtain rfl := Option.some.inj away
      simp [releases] at keeps
    | iopen i =>
      obtain rfl := Option.some.inj away
      have same : s.open_ Process.address p.queue = (.error .alreadyOpen, s, p.queue) := by
        rw [IQStream.open_, if_pos isOpen]
      simp only [Process.exec, Process.onIqstream, row, same] at next
      exact .inl ⟨by rw [next]; exact row_setIqstream row, rfl, by simp⟩
    | iclose i erase ok =>
      obtain rfl := Option.some.inj away
      simp only [Process.exec, Process.onIqstream, row] at next answer
      cases hc : s.close p.queue erase ok with
      | ok pair =>
        simp only [hc] at answer
        rw [answer] at keeps
        simp [releases] at keeps
      | error error =>
        simp only [hc] at next
        exact .inl ⟨by rw [next]; exact row, rfl, by simp⟩
    | iread i io =>
      obtain rfl := Option.some.inj away
      rw [exec_iread io row] at next answer
      exact .inr ⟨io, by rw [answer], by rw [next]; exact row_setIqstream row⟩

/-- The state of a process in which the iqstream at `j` reads the item. -/
structure Reading (j id : ℕ) (header : Header) (chunks past : List Bytes) (p : Process) : Prop where
  cons : Consistent (config p)
  whole : Whole id header chunks (config p)
  stream : ∃ s, p.iqs[j]? = some s ∧ Cursor id header chunks past s

theorem step_reading (fits : header.Fits) (several : 2 ≤ chunks.length)
    (count : header.end_ = header.beg + chunks.length) (past : List Bytes) (p : Process)
    (e : Process.Event) (p' : Process) (keeps : releases j e = false)
    (h : Reading j id header chunks past p) (step : Process.Step p e p') :
    Reading j id header chunks (past ++ readBy j e) p' := by
  obtain ⟨cons', whole'⟩ := step_whole fits count p e p' (isAct_of_keeps keeps) ⟨h.cons, h.whole⟩ step
  refine ⟨cons', whole', ?_⟩
  obtain ⟨s, row, cursor⟩ := h.stream
  rcases iqs_step step keeps row cursor.isOpen with ⟨same, none, -⟩ | ⟨io, rfl, next⟩
  · rw [none, List.append_nil]
    exact ⟨s, same, cursor⟩
  · have stores : Stores p.queue id header chunks :=
      Whole.stores h.whole fits several count (held_of_cursor row cursor)
    refine ⟨_, next, ?_⟩
    rcases cursor.read stores io with
      ⟨-, same⟩ | ⟨chunk, -, ⟨-, s', same, kept⟩ | ⟨s', same, advanced⟩⟩
    · rw [same]
      simpa [readBy, Outcome.ofRead] using cursor
    · rw [same]
      simpa [readBy, Outcome.ofRead] using kept
    · rw [same]
      simpa [readBy, Outcome.ofRead] using advanced

theorem Reading.next (fits : header.Fits) (several : 2 ≤ chunks.length)
    (count : header.end_ = header.beg + chunks.length) {past : List Bytes} {p p' : Process}
    {io : Io} {outcome : Outcome} (h : Reading j id header chunks past p)
    (step : Process.Step p (.act (.iread j io) outcome) p') :
    (past.length = chunks.length → outcome = .threw .eof) ∧
    ∀ chunk, chunks[past.length]? = some chunk → (∀ m, io m = true) → outcome = .chunk chunk := by
  obtain ⟨s, row, cursor⟩ := h.stream
  have stores : Stores p.queue id header chunks :=
    Whole.stores h.whole fits several count (held_of_cursor row cursor)
  cases step with
  | act run small =>
    rw [exec_iread io row] at run
    have answer := (Prod.mk.inj run).2
    rcases cursor.read stores io with
      ⟨finished, same⟩ | ⟨chunk, hn, ⟨failed, s', same, -⟩ | ⟨s', same, -⟩⟩
    · rw [same] at answer
      refine ⟨fun _ => answer.symm, fun chunk hn => ?_⟩
      rw [finished, List.getElem?_eq_none (le_refl _)] at hn
      cases hn
    · have bound := (List.getElem?_eq_some_iff.mp hn).1
      exact ⟨fun finished => by omega, fun _ _ all => absurd all failed⟩
    · have bound := (List.getElem?_eq_some_iff.mp hn).1
      rw [same] at answer
      refine ⟨fun finished => by omega, fun other hother _ => ?_⟩
      rw [hn] at hother
      rw [← answer, ← Option.some.inj hother]
      rfl

end Reader

/-! From the first chunk written to the last one read. -/

theorem writing_opened {p p' : Process} {s₀ : OQStream} {sync : Bool} (several : 2 ≤ k)
    (object : p.oqs[i]? = some s₀)
    (step : Process.Step p (.act (.oopen i k sync) .done) p') :
    ∃ s, Writing i p.queue.chunksHead.id k [] p' s := by
  cases step with
  | act run fits =>
    simp only [Process.exec, Process.onOqstream, object] at run
    by_cases isOpen : s₀.queue.isSome
    · simp [OQStream.open_, isOpen, Outcome.ofWrite] at run
    have more : k > 1 := by omega
    simp only [OQStream.open_, isOpen, more, Bool.false_eq_true, if_false, if_true,
      Queue.reserveChunks, Prod.mk.injEq] at run
    rw [← run.1]
    exact ⟨_, row_setOqstream object, rfl, rfl, rfl, .inr ⟨rfl, rfl, fun n chunk hn => by simp at hn⟩⟩

theorem popBegin_of_iopen {j : ℕ} {p p' : Process}
    (step : Process.Step p (.act (.iopen j) (.opened true)) p') :
    ∃ id q, p.queue.popBegin = some (id, q) ∧ p'.queue = q ∧
      p'.iqs[j]? = some { queue := some Process.address, id := id } := by
  cases step with
  | act run small =>
    cases object : p.iqs[j]? with
    | none => simp [Process.exec, Process.onIqstream, object] at run
    | some s =>
      simp only [Process.exec, Process.onIqstream, object] at run
      obtain ⟨next, answer⟩ := Prod.mk.inj run
      rcases s.open_cases Process.address p.queue with
        ⟨-, same⟩ | ⟨-, -, same⟩ | ⟨-, n, q', pop, same⟩
      · rw [same] at answer
        cases answer
      · rw [same] at answer
        cases answer
      · rw [same] at next
        rw [← next]
        exact ⟨n, q', pop, rfl, row_setIqstream object⟩

theorem reading_opened {id : ℕ} {header : Header} {chunks : List Bytes} {p p' : Process}
    {r : IQStream} (fits : header.Fits) (count : header.end_ = header.beg + chunks.length)
    (h : Consistent (config p) ∧ Whole id header chunks (config p))
    (step : Process.Step p (.act (.iopen j) (.opened true)) p') (row : p'.iqs[j]? = some r)
    (popped : r.id = id) : Reading j id header chunks [] p' := by
  obtain ⟨cons', whole'⟩ := step_whole fits count _ _ _ rfl h step
  refine ⟨cons', whole', r, row, ?_⟩
  obtain ⟨n, q', -, -, opened⟩ := popBegin_of_iopen step
  rw [opened] at row
  obtain rfl := Option.some.inj row
  exact ⟨rfl, popped, rfl, rfl, .inl ⟨rfl, rfl, rfl⟩⟩

theorem head_mono {p p' : Process} {es : List Process.Event} (run : Runs Process.Step p es p')
    (stays : ∀ e ∈ es, abandons i e = false) : p.queue.queueHead.id ≤ p'.queue.queueHead.id := by
  refine run.preserves (P := fun t => p.queue.queueHead.id ≤ t.queue.queueHead.id) ?_ stays
    (le_refl _)
  intro s e t stay below step
  cases step with
  | crash reopen fresh => simp [abandons] at stay
  | @act _ act outcome exec fits =>
    have next : t = (s.exec act).1 := by rw [exec]
    rw [next]
    have moves : Moves (fun _ => True) (fun _ => True) (config s) (config (s.exec act).1) :=
      exec_moves s act ⟨trivial, fun _ _ => trivial⟩
    exact moves.invariant (itemInvariant_head p.queue.queueHead.id).move below

/-- The `k` chunks that go through an oqstream opened for `k` chunks are what every
iqstream gets that pops the item in the same lifetime, in order and up to `eof`,
and nobody can pop it before the last of them is written. -/
theorem chunked_item_survives {path : Bytes} {p₀ p₁ p₂ p₃ : Process} {s₀ : OQStream} {sync : Bool}
    {es : List Process.Event} {last : Bytes} {stray : UInt8} {io : Io}
    (reach : Reachable Process.Step (Process.created path) p₀) (several : 2 ≤ k)
    (object : p₀.oqs[i]? = some s₀)
    (opened : Process.Step p₀ (.act (.oopen i k sync) .done) p₁)
    (writing : Runs Process.Step p₁ es p₂) (stays : ∀ e ∈ es, abandons i e = false)
    (others : (es.flatMap (written i)).length + 1 = k)
    (final : Process.Step p₂ (.act (.owrite i last stray io) .done) p₃) :
    let chunks := es.flatMap (written i) ++ [last]
    ∃ s, p₃.oqs[i]? = some s ∧
      (∀ es₁ es₂ t, es = es₁ ++ es₂ → Runs Process.Step p₁ es₁ t → Runs Process.Step t es₂ p₂ →
        ¬t.queue.Available s.id ∧ ¬t.queue.Stored s.id) ∧
      p₃.queue.Available s.id ∧
      ∀ {j : ℕ} {later p₄ p₅ r}, Runs Process.Step p₃ later p₄ → (∀ e ∈ later, e.isAct) →
        Process.Step p₄ (.act (.iopen j) (.opened true)) p₅ → p₅.iqs[j]? = some r → r.id = s.id →
      ∀ {reading p₆}, Runs Process.Step p₅ reading p₆ → (∀ e ∈ reading, releases j e = false) →
        let past := reading.flatMap (readBy j)
        ∃ r', p₆.iqs[j]? = some r' ∧ past = chunks.take past.length ∧
          r'.tell = total past ∧ (past ≠ [] → r'.size = total chunks) ∧
          ∀ io outcome p₇, Process.Step p₆ (.act (.iread j io) outcome) p₇ →
            (past.length = k → outcome = .threw .eof) ∧
            ∀ chunk, chunks[past.length]? = some chunk → (∀ m, io m = true) →
              outcome = .chunk chunk := by
  intro chunks
  have cons₁ := step_consistent _ _ _ (reachable_consistent reach) opened
  obtain ⟨cons₂, on⟩ := writing.preserves_history (step_writing several) [] stays
    ⟨cons₁, fun _ => writing_opened several object opened⟩
  rw [List.nil_append] at on
  obtain ⟨w, on⟩ := on (by omega)
  obtain ⟨⟨s, row, id⟩, fits, available, whole⟩ := on.publish cons₂ several others final
  have length : chunks.length = k := by
    rw [List.length_append, List.length_singleton]
    exact others
  have count : p₀.queue.chunksHead.id + k = p₀.queue.chunksHead.id + chunks.length := by rw [length]
  refine ⟨s, row, ?_, by rw [id]; exact available, ?_⟩
  · intro es₁ es₂ t parts before after
    have below : t.queue.queueHead.id ≤ s.id := by
      rw [id]
      exact head_mono after fun e he => stays e (by rw [parts]; exact List.mem_append_right _ he)
    have own : t.queue.Ownership _ := (reachable_consistent ((reach.next opened).runs before)).own
    have unavailable : ¬t.queue.Available s.id := by
      have := own.tail_le_head
      rintro (returned | ⟨-, less⟩)
      · have := own.returned_lt _ returned
        omega
      · omega
    refine ⟨unavailable, fun stored => ?_⟩
    rcases own.covered _ stored with avail | held
    · exact unavailable avail
    · have := own.held_lt _ held
      have := own.tail_le_head
      omega
  · intro j later p₄ p₅ r run acts popping rrow rid reading p₆ reads keeps past
    rw [id] at rid
    have start := run.preserves (step_whole fits count) acts
      ⟨step_consistent _ _ _ cons₂ final, whole⟩
    have begun := reading_opened fits count start popping rrow rid
    have state := reads.preserves_history (step_reading fits (by omega) count) [] keeps begun
    rw [List.nil_append] at state
    obtain ⟨r', row', cursor⟩ := state.stream
    refine ⟨r', row', cursor.done, cursor.tell_eq, ?_, ?_⟩
    · intro some
      rcases cursor.cursor with ⟨-, -, none⟩ | ⟨known, -⟩
      · exact absurd none some
      · rw [IQStream.size, known]
    · intro io outcome p₇ step
      have next := state.next fits (by omega) count step
      rw [length] at next
      exact next

/-- A push of two chunks with `destroy` between them, then a pop and two reads. -/
def pushAndRead : List Act :=
  [.newOqstream, .newIqstream, .oopen 0 2 false, .owrite 0 [97] 0 fun _ => true, .destroy [],
    .owrite 0 [98, 99] 0 fun _ => true, .iopen 0, .iread 0 fun _ => true, .iread 0 fun _ => true]

def afterCalls (n : ℕ) : Process := (Process.created [113]).run (pushAndRead.take n)

theorem chunked_item_survives_destroy :
    ∃ r, (afterCalls 9).iqs[0]? = some r ∧ r.tell = 3 ∧ r.size = 3 ∧
      ∀ io outcome p, Process.Step (afterCalls 9) (.act (.iread 0 io) outcome) p →
        outcome = .threw .eof := by
  have reach : Reachable Process.Step (Process.created [113]) (afterCalls 2) :=
    ⟨_, Process.runs_events _ _ (by decide)⟩
  have opened : Process.Step (afterCalls 2) (.act (.oopen 0 2 false) .done) (afterCalls 3) :=
    .act rfl (by decide)
  have writing : Runs Process.Step (afterCalls 3)
      ((afterCalls 3).events [.owrite 0 [97] 0 fun _ => true, .destroy []]) (afterCalls 5) :=
    Process.runs_events _ _ (by decide)
  have final : Process.Step (afterCalls 5) (.act (.owrite 0 [98, 99] 0 fun _ => true) .done)
      (afterCalls 6) := .act rfl (by decide)
  have popping : Process.Step (afterCalls 6) (.act (.iopen 0) (.opened true)) (afterCalls 7) :=
    .act rfl (by decide)
  have reads : Runs Process.Step (afterCalls 7)
      ((afterCalls 7).events [.iread 0 fun _ => true, .iread 0 fun _ => true]) (afterCalls 9) :=
    Process.runs_events _ _ (by decide)
  obtain ⟨s, row, -, -, read⟩ :=
    chunked_item_survives reach (le_refl 2) rfl opened writing (by decide) rfl final
  obtain rfl := Option.some.inj row
  obtain ⟨r, rrow, -, tell, size, next⟩ := read (.nil _) (by simp) popping rfl rfl reads (by decide)
  exact ⟨r, rrow, tell, size (by decide), fun io outcome p step => (next io outcome p step).1 rfl⟩

end Darner.ChunkedItems
