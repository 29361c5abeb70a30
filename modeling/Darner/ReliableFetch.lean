import Darner.FetchEvents

/-! Reliable fetch. An item that a connection has popped leaves the journal only by
the `get` that popped it, when that `get` neither keeps it open nor peeks and has
read all of it, or by a later request with `close` after a `get` with `open`. In
every other case the item goes back to the returned ids, once, when the connection
lets go of it. The server may be restarted any number of times on what a crash
leaves of its journals. -/

namespace Darner.ReliableFetch
open OrderedStore LabelledRuns StreamMoves QueuePartition QueueRecovery ChunkLayout CrashConsistency
open ServerMoves ServerWaiters ReadProgress FetchDeeds FetchEvents

variable {s s' t : Server} {i address id : ℕ}

theorem ends_removed (ends : PopEnds i address id true s s') :
    (s'.object address).contents.lookup ⟨.queue, id⟩ = none := by
  obtain ⟨there, made, held, q, ok, stream, pop, closed, rfl⟩ := ends
  rw [Server.object_setConn, Server.object_setObject_self q made]
  obtain ⟨bytes, ranges, rfl⟩ := Queue.popEnd_erase pop
  have erased := (s.object address).lookup_erased id (s.conn i).popStream.header ⟨.queue, id⟩
  rwa [if_pos (by rw [Queue.queue_mem_itemKeys])] at erased

theorem ends_object {erase : Bool} (ends : PopEnds i address id erase s s') (other : ℕ) :
    (s'.object other).queueHead = (s.object other).queueHead ∧
    ∀ n, (erase = true → other = address → n ≠ id) →
      (s'.object other).contents.lookup ⟨.queue, n⟩ =
        (s.object other).contents.lookup ⟨.queue, n⟩ := by
  obtain ⟨there, made, held, q, ok, stream, pop, closed, rfl⟩ := ends
  by_cases same : other = address
  · subst same
    rw [Server.object_setConn, Server.object_setObject_self q made]
    exact ⟨Queue.head_popEnd pop, fun n kept => Queue.entry_popEnd pop fun erase => kept erase rfl⟩
  · rw [Server.object_setConn, Server.object_setObject_ne s q same]
    exact ⟨rfl, fun _ _ => rfl⟩

theorem take_object (take : Did i (.take address id) s s') (other : ℕ) :
    (s'.object other).queueHead = (s.object other).queueHead ∧
      (s'.object other).contents = (s.object other).contents := by
  obtain ⟨-, -, q, pop, rfl⟩ := take
  by_cases same : other = address
  · subst same
    rw [Server.object_setConn, Server.object_setObject_self q (popBegin_made pop)]
    exact ⟨Queue.head_popBegin pop, Queue.contents_popBegin pop⟩
  · rw [Server.object_setConn, Server.object_setObject_ne s q same]
    exact ⟨rfl, rfl⟩

theorem did_head {deed : Deed} (did : Did i deed s s') (other : ℕ) :
    (s'.object other).queueHead = (s.object other).queueHead := by
  cases deed with
  | take a n => exact (take_object did other).1
  | remove a n => exact (ends_object did other).1
  | giveBack a n => exact (ends_object did other).1

theorem did_entry {deed : Deed} (did : Did i deed s s') (kept : deed ≠ .remove address id) :
    (s'.object address).contents.lookup ⟨.queue, id⟩ =
      (s.object address).contents.lookup ⟨.queue, id⟩ := by
  cases deed with
  | take a n => rw [(take_object did address).2]
  | remove a n =>
    apply (ends_object did address).2
    rintro - rfl rfl
    exact kept rfl
  | giveBack a n =>
    apply (ends_object did address).2
    rintro wrong
    cases wrong

theorem after_entry {deeds : List Deed} (after : After i deeds s s')
    (below : id < (s.object address).queueHead.id) (kept : .remove address id ∉ deeds) :
    (s'.object address).contents.lookup ⟨.queue, id⟩ =
      (s.object address).contents.lookup ⟨.queue, id⟩ := by
  induction deeds generalizing s with
  | nil => exact (Calm.quiet after address).entries id below
  | cons deed deeds ih =>
    obtain ⟨t, t', calm, did, rest⟩ := after
    rw [List.mem_cons, not_or] at kept
    have quiet := calm.quiet address
    have below' : id < (t'.object address).queueHead.id := by
      rw [did_head did]
      exact lt_of_lt_of_le below quiet.head
    calc (s'.object address).contents.lookup ⟨.queue, id⟩
        = (t'.object address).contents.lookup ⟨.queue, id⟩ := ih rest below' kept.2
      _ = (t.object address).contents.lookup ⟨.queue, id⟩ := did_entry did (Ne.symm kept.1)
      _ = (s.object address).contents.lookup ⟨.queue, id⟩ := quiet.entries id below

theorem after_remove {deeds : List Deed} (after : After i (.remove address id :: deeds) s s')
    (below : id < (s.object address).queueHead.id) (once : .remove address id ∉ deeds) :
    (s'.object address).contents.lookup ⟨.queue, id⟩ = none := by
  obtain ⟨t, t', calm, did, rest⟩ := after
  have below' : id < (t'.object address).queueHead.id := by
    rw [did_head did]
    exact lt_of_lt_of_le below (calm.quiet address).head
  rw [after_entry rest below' once]
  exact ends_removed did

theorem ends_closed {erase : Bool} (ends : PopEnds i address id erase s s') :
    (s'.conn i).popStream.queue = none := by
  obtain ⟨there, made, held, q, ok, stream, pop, closed, rfl⟩ := ends
  rw [Server.conn_setObject_setConn address q _ there]
  exact closed

theorem closed_after {deeds : List Deed} {deed : Deed} (after : After i deeds s s')
    (last : deeds.getLast? = some deed)
    (ends : ∀ {t t'}, Did i deed t t' → (t'.conn i).popStream.queue = none) :
    (s'.conn i).popStream.queue = none := by
  induction deeds generalizing s with
  | nil => cases last
  | cons first deeds ih =>
    obtain ⟨t, t', -, did, rest⟩ := after
    cases deeds with
    | nil =>
      obtain rfl : first = deed := Option.some.inj last
      exact (Calm.closed_iff rest).mpr (ends did)
    | cons second deeds => exact ih rest (by rwa [List.getLast?_cons_cons] at last)

theorem closed_remove {deeds : List Deed} (after : After i deeds s s')
    (last : deeds.getLast? = some (.remove address id)) : (s'.conn i).popStream.queue = none :=
  closed_after after last ends_closed

theorem closed_giveBack {deeds : List Deed} (after : After i deeds s s')
    (last : deeds.getLast? = some (.giveBack address id)) : (s'.conn i).popStream.queue = none :=
  closed_after after last ends_closed

theorem holds_after_take (after : After i [.take address id] s s') : Holds s' i address id := by
  obtain ⟨t, t', -, take, last⟩ := after
  exact (Calm.held last address id).mpr (holds_take take)

theorem holds_after_retake {address' id' : ℕ}
    (after : After i [.remove address id, .take address' id'] s s') : Holds s' i address' id' := by
  obtain ⟨t, t', -, -, rest⟩ := after
  exact holds_after_take rest

theorem closed_before_take {deeds : List Deed} (after : After i (.take address id :: deeds) s s') :
    (s.conn i).popStream.queue = none := by
  obtain ⟨t, t', calm, ⟨-, closed, -⟩, -⟩ := after
  exact calm.closed_iff.mp closed

theorem not_holds_closed (closed : (s.conn i).popStream.queue = none) : ¬Holds s i address id := by
  intro held
  rw [Holds, closed] at held
  cases held.1

theorem holds_unique {address' id' : ℕ} (held : Holds s i address id)
    (held' : Holds s i address' id') : address' = address ∧ id' = id := by
  have same := held.1.symm.trans held'.1
  exact ⟨(Option.some.inj same).symm, held'.2.symm.trans held.2⟩

theorem after_giveBack (sound : Sound (config s address))
    (after : After i [.giveBack address id] s s') :
    id ∉ (s.object address).returned ∧
      (s'.object address).returned = insert id (s.object address).returned := by
  have held := held_giveBack after
  refine ⟨sound.cons.own.held_not_returned id held.mem, ?_⟩
  obtain ⟨t, t', calm, ⟨there, made, -, q, ok, stream, pop, -, rfl⟩, last⟩ := after
  rw [(Calm.quiet last address).returned, ← (calm.quiet address).returned]
  rw [Server.object_setConn, Server.object_setObject_self q made]
  rw [Queue.popEnd_return] at pop
  rw [← Except.ok.inj pop, (Queue.sameItems_wakeUp _).returned]
  rfl

theorem not_retaken {address' id' : ℕ} (sound : Sound (config s address))
    (after : After i [.remove address id, .take address' id'] s s') :
    ¬(address' = address ∧ id' = id) := by
  rintro ⟨rfl, rfl⟩
  have held := held_remove after
  have own := sound.cons.own
  have below : id' < (s.object address').queueTail.id := own.held_lt id' held.mem
  have away : id' ∉ (s.object address').returned := own.held_not_returned id' held.mem
  obtain ⟨t, t', calm, ⟨there, made, -, q, ok, stream, pop, -, rfl⟩, u, u', calm', take, -⟩ := after
  obtain ⟨-, -, q', pop', -⟩ := take
  have self : ((t.setObject address' q).setConn i { t.conn i with popStream := stream }).object
    address' = q := Server.object_setObject_self q made
  obtain ⟨returned, tail⟩ : q.returned = (t.object address').returned ∧
      q.queueTail = (t.object address').queueTail := by
    obtain ⟨bytes, ranges, rfl⟩ := Queue.popEnd_erase pop
    exact ⟨rfl, rfl⟩
  rw [← self, ← (calm'.quiet address').returned, (calm.quiet address').returned] at returned
  rw [← self, ← (calm'.quiet address').tail, (calm.quiet address').tail] at tail
  rcases Queue.popBegin_some pop' with ⟨mem, -, -⟩ | ⟨-, -, same, -⟩
  · rw [returned] at mem
    exact away mem
  · rw [tail] at same
    omega

theorem not_held_before_take {deeds : List Deed} (sound : Sound (config s address))
    (after : After i (.take address id :: deeds) s s') (j : ℕ) : ¬Holds s j address id := by
  intro held
  obtain ⟨t, t', calm, ⟨-, -, q, pop, -⟩, -⟩ := after
  have own := sound.cons.own
  have quiet := calm.quiet address
  rcases Queue.popBegin_some pop with ⟨mem, -, -⟩ | ⟨-, -, same, -⟩
  · rw [quiet.returned] at mem
    exact own.held_not_returned id held.mem mem
  · have below : id < (s.object address).queueTail.id := own.held_lt id held.mem
    rw [quiet.tail] at same
    omega

theorem holder_unique {j : ℕ} (sound : Sound (config s address)) (held : Holds s i address id)
    (held' : Holds s j address id) : j = i := by
  have once := sound.cons.own.held_nodup
  rw [heldIds, List.nodup_iff_pairwise_ne, List.pairwise_map] at once
  rw [ServerMoves.config, List.pairwise_filterMap] at once
  have apart : ∀ {a b : ℕ}, Holds s a address id → Holds s b address id → ¬a < b := by
    intro a b first second less
    have rows := List.pairwise_iff_getElem.mp once a b first.there second.there less
    have row : ∀ {c : ℕ} (there : c < s.conns.length), s.conns[c] = s.conn c := by
      intro c there
      simp [Server.conn, there]
    rw [row first.there, row second.there] at rows
    exact rows _ (readerOn_open first.1) _ (readerOn_open second.1) (first.2.trans second.2.symm)
  have := apart held held'
  have := apart held' held
  omega

/-- The server is started again over what is left of its journals: of each, the
first writes. -/
structure Restarted (s s' : Server) : Prop where
  started : s'.Started
  journals : ∀ q ∈ s'.objects, ∃ address writes path,
    Queue.new ((s.object address).journal.imageAt writes) path = some q

inductive LifeEvent where
  | event (event : ServerEvent)
  | restart

inductive Life : Server → LifeEvent → Server → Prop where
  | event {s s' : Server} {event : ServerEvent} (step : s.Step event s') (fits : Fits s') :
      Life s (.event event) s'
  | restart {s s' : Server} (again : Restarted s s') : Life s .restart s'

theorem sound_new {image : Image} {path : Bytes} {q : Queue} (new : Queue.new image path = some q)
    (intact : Intact image) (solid : Solid image) : Sound ⟨q, [], []⟩ := by
  refine ⟨?_, fun n => ?_, by simp⟩
  · rcases new_cases new with rec | ⟨empty, rfl⟩
    · exact consistent_recovered rec intact
    · exact consistent_blank path empty
  · simp only [journal_new new, Journal.imageAt_fresh]
    exact solid

theorem settled_started (started : s.Started) (sound : ∀ q ∈ s.objects, Sound ⟨q, [], []⟩) :
    Settled s := by
  have closed := started.closed
  refine ⟨started.chunkSize_pos, awake_started started, fun a => ?_, fun j a isOpen => ?_, fun j => ?_⟩
  · have streams : ServerMoves.config s a = ⟨s.object a, [], []⟩ := by
      simp [ServerMoves.config, started.conns]
    rw [streams]
    refine Server.object_all (P := fun q => Sound ⟨q, [], []⟩) sound ?_ a
    exact sound_new (new_empty [] fun _ => Finmap.notMem_empty)
      (intact_empty fun _ => Finmap.notMem_empty) fun n chunk found => by
        rw [Finmap.lookup_empty] at found
        cases found
  · rw [closed j] at isOpen
    cases isOpen
  · rw [closed j]
    exact phase_closed

theorem settled_empty {chunkSize : ℕ} {dataPath : Bytes} (pos : 0 < chunkSize) :
    Settled (.empty chunkSize dataPath) :=
  settled_started (Server.started_empty chunkSize dataPath pos) fun q mem => by cases mem

theorem life_settled (s : Server) (turn : LifeEvent) (s' : Server) (settled : Settled s)
    (life : Life s turn s') : Settled s' := by
  cases life with
  | event step fits => exact step_settled settled step fits
  | restart again =>
    refine settled_started again.started fun q mem => ?_
    obtain ⟨a, writes, path, new⟩ := again.journals q mem
    have sound := settled.sound a
    exact sound_new new (sound.cons.images writes) (sound.solid writes)

theorem life_changes {event : ServerEvent} (settled : Settled s)
    (life : Life s (.event event) s') (a : ℕ) :
    Changes (ServerMoves.config s a) (ServerMoves.config s' a) := by
  obtain ⟨step, fits⟩ := life
  obtain ⟨i, turned⟩ := step_turned settled step fits
  obtain ⟨deeds, after⟩ := turned.effect.after
  exact after.changes a

/-- Connection `i` popped the item, in the request `req`, and has held it since then;
`later` are the requests that it has read since then. -/
inductive Fetched (start : Server) (i address id : ℕ) : Request → List Request → Server → Prop where
  | popped {s s' : Server} {event : ServerEvent} (reach : Reachable Life start s)
      (life : Life s (.event event) s') (free : ¬Holds s i address id)
      (held : Holds s' i address id) : Fetched start i address id (s'.conn i).req [] s'
  | kept {req : Request} {later : List Request} {s s' : Server} {event : ServerEvent}
      (fetched : Fetched start i address id req later s) (life : Life s (.event event) s')
      (held : Holds s' i address id) :
      Fetched start i address id req (later ++ (parsed s i event).toList) s'

variable {start : Server} {req : Request} {later : List Request}

theorem Fetched.held (fetched : Fetched start i address id req later s) :
    Holds s i address id := by
  cases fetched with
  | popped _ _ _ held => exact held
  | kept _ _ held => exact held

theorem Fetched.reach (fetched : Fetched start i address id req later s) :
    Reachable Life start s := by
  induction fetched with
  | popped reach life _ _ => exact reach.next life
  | kept _ life _ ih => exact ih.next life

theorem holds_fetched (free : ∀ i a n, ¬Holds start i a n) (reach : Reachable Life start s) :
    ∀ i a n, Holds s i a n → ∃ req later, Fetched start i a n req later s := by
  have invariant := reach.invariant
    (P := fun s => Reachable Life start s ∧
      ∀ i a n, Holds s i a n → ∃ req later, Fetched start i a n req later s)
    ⟨.refl, fun i a n held => absurd held (free i a n)⟩ ?_
  · exact invariant.2
  rintro s turn s' ⟨reach, past⟩ life
  refine ⟨reach.next life, fun i a n held => ?_⟩
  cases life with
  | event step fits =>
    by_cases before : Holds s i a n
    · obtain ⟨req, later, fetched⟩ := past i a n before
      exact ⟨_, _, fetched.kept (.event step fits) held⟩
    · exact ⟨_, _, .popped reach (.event step fits) before held⟩
  | restart again =>
    have there := held.there
    simp [again.started.conns] at there

theorem reading_parsed {event : ServerEvent} {last : Request}
    (read : parsed s i event = some last) : (s.conn i).pending = .readUntil := by
  cases event with
  | readDone j env =>
    simp only [parsed] at read
    split at read
    case isTrue reading => exact reading.2
    case isFalse => cases read
  | _ => cases read

theorem idle_parsed {event : ServerEvent} {last : Request} (read : parsed s i event = some last) :
    Idle (s.conn i) := by
  have reading := reading_parsed read
  exact idle_pending (by simp [reading]) (by simp [reading])

structure RequestStage (i : ℕ) (req : Request) (later : List Request) (s : Server) : Prop where
  type : req.type = .get
  serving : Serving (s.conn i) → later = [] ∧ (s.conn i).req = req
  idle : Idle (s.conn i) → req.getOpen = true

theorem effect_holding {event : ServerEvent} (settled : Settled s) (effect : Effect i event s s')
    (held : Holds s' i address id) :
    (Calm i s s' ∧ Follows (s.conn i) (s'.conn i)) ∨
    (¬Holds s i address id ∧ (s'.conn i).req.type = .get ∧
      (Idle (s'.conn i) → (s'.conn i).req.getOpen = true)) := by
  have gone : (s'.conn i).popStream.queue ≠ none := fun closed => not_holds_closed closed held
  cases effect with
  | calm calm follows => exact .inl ⟨calm, follows⟩
  | took after type opens => exact .inr ⟨not_holds_closed (closed_before_take after), type, opens⟩
  | tookRemoved after => exact absurd (closed_remove after rfl) gone
  | tookReturned after => exact absurd (closed_giveBack after rfl) gone
  | finished after => exact absurd (closed_remove after rfl) gone
  | returned after => exact absurd (closed_giveBack after rfl) gone
  | closed _ _ _ after => exact absurd (closed_remove after rfl) gone
  | closedTook read type close isOpen after =>
    refine .inr ⟨fun before => ?_, type, fun _ => isOpen⟩
    obtain ⟨rfl, rfl⟩ := holds_unique before (held_remove after)
    exact not_retaken (settled.sound _) after (holds_unique held (holds_after_retake after))

theorem stage_popped {event : ServerEvent} (settled : Settled s) (life : Life s (.event event) s')
    (free : ¬Holds s i address id) (held : Holds s' i address id) :
    RequestStage i (s'.conn i).req [] s' := by
  obtain ⟨step, fits⟩ := life
  obtain ⟨j, effect, -⟩ := step_turned settled step fits
  by_cases same : i = j
  · subst same
    rcases effect_holding settled effect held with ⟨calm, -⟩ | ⟨-, type, opens⟩
    · exact absurd ((calm.held address id).mp held) free
    · exact ⟨type, fun _ => ⟨rfl, rfl⟩, opens⟩
  · obtain ⟨deeds, after⟩ := effect.after
    rw [Holds, after.others same] at held
    exact absurd held free

theorem stage_kept {event : ServerEvent} (settled : Settled s) (life : Life s (.event event) s')
    (before : Holds s i address id) (held : Holds s' i address id)
    (stage : RequestStage i req later s) :
    RequestStage i req (later ++ (parsed s i event).toList) s' := by
  obtain ⟨step, fits⟩ := life
  obtain ⟨j, effect, -⟩ := step_turned settled step fits
  -- a connection that is serving has not read a request
  have unread : Serving (s.conn i) → later ++ (parsed s i event).toList = [] := by
    intro serving
    cases read : parsed s i event with
    | none => simpa using (stage.serving serving).1
    | some last => exact absurd serving (idle_parsed read).1
  by_cases same : i = j
  · subst same
    rcases effect_holding settled effect held with ⟨-, follows⟩ | ⟨free, -, -⟩
    · refine ⟨stage.type, fun serving => ?_, fun idle => ?_⟩
      · obtain ⟨serving, req⟩ := follows.serving serving
        exact ⟨unread serving, req.trans (stage.serving serving).2⟩
      · rcases follows.idle idle (by rw [held.1]; rfl) with idle | ⟨serving, isOpen, -⟩
        · exact stage.idle idle
        · rwa [(stage.serving serving).2] at isOpen
    · exact absurd before free
  · obtain ⟨deeds, after⟩ := effect.after
    have conn := after.others same
    refine ⟨stage.type, fun serving => ?_, fun idle => ?_⟩
    · rw [conn] at serving ⊢
      exact ⟨unread serving, (stage.serving serving).2⟩
    · rw [conn] at idle
      exact stage.idle idle

theorem Fetched.stage (settled : Settled start) (fetched : Fetched start i address id req later s) :
    RequestStage i req later s := by
  induction fetched with
  | popped reach life free held =>
    exact stage_popped (reach.invariant settled life_settled) life free held
  | kept fetched life held ih =>
    exact stage_kept (fetched.reach.invariant settled life_settled) life fetched.held held ih

/-- The two ways to remove an item that was popped in the request `req`: by the same
request, or by a later one with `close` after an `open`. -/
def MayRemove (i address id : ℕ) (req : Request) (later : List Request) (event : ServerEvent)
    (s s' : Server) : Prop :=
  (later = [] ∧ (s'.conn i).req = req ∧ Sent i address id s s') ∨
  (req.getOpen = true ∧
    ∃ last, parsed s i event = some last ∧ last.type = .get ∧ last.getClose = true)

/-- How an event leaves an item that connection `i` holds. -/
inductive HeldFate (i address id : ℕ) (req : Request) (later : List Request)
    (event : ServerEvent) (s s' : Server) : Prop where
  | holds (held : Holds s' i address id)
      (entry : (s'.object address).contents.lookup ⟨.queue, id⟩ =
        (s.object address).contents.lookup ⟨.queue, id⟩)
  | removed (gone : ¬Holds s' i address id)
      (entry : (s'.object address).contents.lookup ⟨.queue, id⟩ = none)
      (may : MayRemove i address id req later event s s')
  | returned (gone : ¬Holds s' i address id) (away : id ∉ (s.object address).returned)
      (returned : (s'.object address).returned = insert id (s.object address).returned)
      (entry : (s'.object address).contents.lookup ⟨.queue, id⟩ =
        (s.object address).contents.lookup ⟨.queue, id⟩)

theorem held_below (sound : Sound (ServerMoves.config s address)) (held : Holds s i address id) :
    id < (s.object address).queueHead.id :=
  lt_of_lt_of_le (sound.cons.own.held_lt id held.mem) sound.cons.own.tail_le_head

theorem stored_below (sound : Sound (ServerMoves.config s address))
    (stored : (s.object address).Stored id) : id < (s.object address).queueHead.id := by
  have own := sound.cons.own
  rcases own.covered id stored with (returned | range) | held
  · exact lt_of_lt_of_le (own.returned_lt id returned) own.tail_le_head
  · exact range.2
  · exact lt_of_lt_of_le (own.held_lt id held) own.tail_le_head

theorem effect_entry {event : ServerEvent} (settled : Settled s) (effect : Effect i event s s')
    (below : id < (s.object address).queueHead.id) :
    (s'.object address).contents.lookup ⟨.queue, id⟩ =
      (s.object address).contents.lookup ⟨.queue, id⟩ ∨
    Holds s i address id ∨
    (∀ j, ¬Holds s j address id) ∧ Sent i address id s s' := by
  have sound := settled.sound address
  by_cases held : Holds s i address id
  · exact .inr (.inl held)
  have kept : ∀ {a n deeds}, After i (.remove a n :: deeds) s s' →
      Deed.remove address id ≠ .remove a n := by
    rintro a n deeds after same
    cases same
    exact held (held_remove after)
  cases effect with
  | calm calm _ => exact .inl ((calm.quiet address).entries id below)
  | took after => exact .inl (after_entry after below (by simp))
  | @tookRemoved a n after sent =>
    by_cases same : Deed.remove address id = .remove a n
    · cases same
      exact .inr (.inr ⟨not_held_before_take sound after, sent⟩)
    · exact .inl (after_entry after below (by simpa using same))
  | tookReturned after => exact .inl (after_entry after below (by simp))
  | finished after => exact .inl (after_entry after below (by simpa using kept after))
  | returned after => exact .inl (after_entry after below (by simp))
  | closed _ _ _ after => exact .inl (after_entry after below (by simpa using kept after))
  | closedTook _ _ _ _ after => exact .inl (after_entry after below (by simpa using kept after))

theorem effect_continues {event : ServerEvent} (settled : Settled s) (held : Holds s i address id)
    (stage : RequestStage i req later s) (effect : Effect i event s s') :
    HeldFate i address id req later event s s' := by
  have sound := settled.sound address
  have below := held_below sound held
  cases effect with
  | calm calm _ =>
    exact .holds ((calm.held address id).mpr held) ((calm.quiet address).entries id below)
  | took after => exact absurd held (not_holds_closed (closed_before_take after))
  | tookRemoved after => exact absurd held (not_holds_closed (closed_before_take after))
  | tookReturned after => exact absurd held (not_holds_closed (closed_before_take after))
  | finished after serving same sent =>
    obtain ⟨rfl, rfl⟩ := holds_unique held (held_remove after)
    obtain ⟨first, req⟩ := stage.serving serving
    exact .removed (not_holds_closed (closed_remove after rfl)) (after_remove after below (by simp))
      (.inl ⟨first, same.trans req, sent⟩)
  | returned after =>
    obtain ⟨rfl, rfl⟩ := holds_unique held (held_giveBack after)
    obtain ⟨away, returned⟩ := after_giveBack sound after
    exact .returned (not_holds_closed (closed_giveBack after rfl)) away returned
      (after_entry after below (by simp))
  | closed read type close after =>
    obtain ⟨rfl, rfl⟩ := holds_unique held (held_remove after)
    exact .removed (not_holds_closed (closed_remove after rfl)) (after_remove after below (by simp))
      (.inr ⟨stage.idle (idle_parsed read), _, read, type, close⟩)
  | closedTook read type close isOpen after =>
    obtain ⟨rfl, rfl⟩ := holds_unique held (held_remove after)
    refine .removed (fun still => ?_) (after_remove after below (by simp))
      (.inr ⟨stage.idle (idle_parsed read), _, read, type, close⟩)
    exact not_retaken sound after (holds_unique still (holds_after_retake after))

theorem life_continues {event : ServerEvent} (settled : Settled s) (held : Holds s i address id)
    (stage : RequestStage i req later s) (life : Life s (.event event) s') :
    HeldFate i address id req later event s s' := by
  obtain ⟨step, fits⟩ := life
  obtain ⟨j, effect, -⟩ := step_turned settled step fits
  by_cases same : i = j
  · subst same
    exact effect_continues settled held stage effect
  · have sound := settled.sound address
    obtain ⟨deeds, after⟩ := effect.after
    have still : Holds s' i address id := by
      rw [Holds, after.others same]
      exact held
    rcases effect_entry settled effect (held_below sound held) with entry | other | ⟨free, -⟩
    · exact .holds still entry
    · exact absurd (holder_unique sound other held) same
    · exact absurd held (free i)

theorem free_removed {event : ServerEvent} (settled : Settled s) (life : Life s (.event event) s')
    (free : ∀ j, ¬Holds s j address id) (stored : (s.object address).Stored id)
    (gone : ¬(s'.object address).Stored id) : ∃ i, Sent i address id s s' := by
  obtain ⟨step, fits⟩ := life
  obtain ⟨i, effect, -⟩ := step_turned settled step fits
  have below := stored_below (settled.sound address) stored
  rcases effect_entry settled effect below with entry | held | ⟨-, sent⟩
  · rw [Queue.Stored, mem_iff_lookup, ← entry, ← mem_iff_lookup] at stored
    exact absurd stored gone
  · exact absurd held (free i)
  · exact ⟨i, sent⟩

theorem holds_of_mem (mem : id ∈ heldIds (ServerMoves.config s address)) :
    ∃ i, Holds s i address id := by
  obtain ⟨stream, reader, rfl⟩ := List.mem_map.mp mem
  obtain ⟨h, row, seen⟩ := List.mem_filterMap.mp reader
  obtain ⟨i, there, rfl⟩ := List.mem_iff_getElem.mp row
  have conn : s.conn i = s.conns[i] := by simp [Server.conn, there]
  unfold readerOn at seen
  split at seen
  case isTrue isOpen =>
    rw [← conn] at isOpen seen
    exact ⟨i, isOpen, congrArg IQStream.id (Option.some.inj seen)⟩
  case isFalse => cases seen

/-- An item that was popped and is still stored is either returned or held by
exactly one connection. -/
theorem popped_item (sound : Sound (ServerMoves.config s address))
    (stored : (s.object address).Stored id) (popped : id < (s.object address).queueTail.id) :
    (id ∈ (s.object address).returned ∧ ∀ i, ¬Holds s i address id) ∨
      (id ∉ (s.object address).returned ∧ ∃! i, Holds s i address id) := by
  have own := sound.cons.own
  rcases own.covered id stored with (returned | ⟨tail, -⟩) | held
  · exact .inl ⟨returned, fun i held => own.held_not_returned id held.mem returned⟩
  · exact absurd popped (Nat.not_lt_of_le tail)
  · obtain ⟨i, holds⟩ := holds_of_mem held
    exact .inr ⟨own.held_not_returned id held, i, holds, fun j other => holder_unique sound holds other⟩

theorem popClose_return (s : Server) (i : ℕ) (ok : Bool) : ∃ t, s.popClose i false ok = .ok t := by
  unfold Server.popClose
  split
  · exact ⟨_, rfl⟩
  case h_2 a isOpen =>
    rw [IQStream.close, isOpen]
    simp only [Queue.popEnd_return]
    exact ⟨_, rfl⟩

theorem get_abort {env : Env} (ready : Ready i s) (held : Holds s i address id)
    (abort : (s.conn i).req.getAbort = true)
    (alone : ((s.conn i).req.getOpen || (s.conn i).req.getClose || (s.conn i).req.getPeek) = false)
    (run : s.get i env = .ok s') : After i [.giveBack address id] s s' := by
  have there := ready.there
  simp only [Bool.or_eq_false_iff] at alone
  obtain ⟨⟨notOpen, notClose⟩, notPeek⟩ := alone
  obtain ⟨t, close⟩ := popClose_return s i (env.io 0)
  simp [Server.get, abort, notOpen, notClose, notPeek, close] at run
  rcases Server.popClose_ok close with ⟨closed, -⟩ | ⟨a, q, isOpen, pop, same⟩
  · rw [held.1] at closed
    cases closed
  · obtain rfl : address = a := Option.some.inj (held.1.symm.trans isOpen)
    obtain rfl : (s.conn i).popStream.id = id := held.2
    have ends : PopEnds i address (s.conn i).popStream.id false s t :=
      ⟨there, holds_made held (ready.sound address), held, q, _, _, pop, rfl, same⟩
    have did : Did i (.giveBack address (s.conn i).popStream.id) s t := ends
    have req : (t.conn i).req = (s.conn i).req := by
      rw [same, Server.conn_setObject_setConn address q _ there]
    simp only [Server.getPop, req, abort, Bool.or_true, if_true] at run
    rw [← Except.ok.inj run]
    exact did.after.calm (calm_reply (ready.did did).there _ _)

theorem abort_returns {event : ServerEvent} {last : Request} (settled : Settled s)
    (held : Holds s i address id) (read : parsed s i event = some last) (type : last.type = .get)
    (abort : last.getAbort = true)
    (alone : (last.getOpen || last.getClose || last.getPeek) = false) (step : s.Step event s') :
    After i [.giveBack address id] s s' := by
  cases event with
  | readDone j env =>
    simp only [parsed] at read
    split at read
    case isFalse => cases read
    case isTrue here =>
      obtain ⟨rfl, reading⟩ := here
      obtain ⟨n, line, parse⟩ := Option.bind_eq_some_iff.mp read
      have there : j < s.conns.length := Server.conn_there (by simp [reading])
      let h : Handler := { s.conn j with req := last, inBuf := (s.conn j).inBuf.drop n }
      have conn : (s.setConn j h).countGet.conn j = h := Server.conn_setConn_self h there
      have read : Calm j s (s.setConn j h) := calm_setConn there (fun _ => rfl) fun _ => rfl
      have calm : Calm j s (s.setConn j h).countGet := read.trans (calm_stats j _ _)
      have run : s.parseRequest j n env = .ok s' := by
        simpa only [Server.Step, Server.step, Server.readDone, reading, line] using step
      simp only [Server.parseRequest, parse] at run
      rw [Server.dispatch, Server.conn_setConn_self h there, type] at run
      refine calm.after (get_abort ((settled.ready there).calm calm)
        ((calm.held address id).mpr held) ?_ ?_ run)
      · rw [conn]
        exact abort
      · rw [conn]
        exact alone
  | _ => cases read

/-- In every state of every life of the server: no event opens a pop stream that is
open; an item that was popped and is still stored is returned or held, by one
connection; every item that is held was fetched by a `get`; a connection that is closed
holds nothing. An event leaves an item that is held as it is, removes it in one of the
two ways, or returns it; it removes no other item than one that it has popped and sent;
and an `abort` by itself returns the item. -/
theorem reliable_fetch {chunkSize : ℕ} {dataPath : Bytes} (pos : 0 < chunkSize)
    (reach : Reachable Life (.empty chunkSize dataPath) s) :
    (∀ event, s.step event ≠ .error .popAlreadyOpen) ∧
    (∀ a n, (s.object a).Stored n → n < (s.object a).queueTail.id →
      (n ∈ (s.object a).returned ∧ ∀ i, ¬Holds s i a n) ∨
      (n ∉ (s.object a).returned ∧ ∃! i, Holds s i a n)) ∧
    (∀ i a n, Holds s i a n → ∃ req later,
      Fetched (.empty chunkSize dataPath) i a n req later s ∧ req.type = .get) ∧
    (∀ i, (s.conn i).pending = .closed → ∀ a n, ¬Holds s i a n) ∧
    ∀ event s', Life s (.event event) s' →
      (∀ i a n req later, Fetched (.empty chunkSize dataPath) i a n req later s →
        HeldFate i a n req later event s s') ∧
      (∀ a n, (s.object a).Stored n → ¬(s'.object a).Stored n →
        (∃ i req later, Fetched (.empty chunkSize dataPath) i a n req later s ∧
          MayRemove i a n req later event s s') ∨
        (∀ j, ¬Holds s j a n) ∧ ∃ i, Sent i a n s s') ∧
      ∀ i a n last, Holds s i a n → parsed s i event = some last → last.type = .get →
        last.getAbort = true → (last.getOpen || last.getClose || last.getPeek) = false →
        ¬Holds s' i a n ∧ n ∉ (s.object a).returned ∧
        (s'.object a).returned = insert n (s.object a).returned ∧
        (s'.object a).contents.lookup ⟨.queue, n⟩ = (s.object a).contents.lookup ⟨.queue, n⟩ := by
  have start : Settled (.empty chunkSize dataPath) := settled_empty pos
  have settled : Settled s := reach.invariant start life_settled
  have nobody : ∀ i a n, ¬Holds (.empty chunkSize dataPath) i a n :=
    fun i a n held => absurd held.there (Nat.not_lt_zero i)
  have past := holds_fetched nobody reach
  have next : ∀ {event s'}, Life s (.event event) s' → ∀ i a n req later,
      Fetched (.empty chunkSize dataPath) i a n req later s →
        HeldFate i a n req later event s s' := fun life _ _ _ _ _ fetched =>
    life_continues settled fetched.held (fetched.stage start) life
  refine ⟨step_not_open, fun a n => popped_item (settled.sound a), fun i a n held => ?_,
    fun i closed a n => not_holds_closed ((settled.phase i).shut closed), fun event s' life =>
    ⟨next life, fun a n stored gone => ?_, fun i a n last held read type abort alone => ?_⟩⟩
  · obtain ⟨req, later, fetched⟩ := past i a n held
    exact ⟨req, later, fetched, (fetched.stage start).type⟩
  · by_cases held : ∃ i, Holds s i a n
    · obtain ⟨i, held⟩ := held
      obtain ⟨req, later, fetched⟩ := past i a n held
      refine .inl ⟨i, req, later, fetched, ?_⟩
      have kept : (s'.object a).contents.lookup ⟨.queue, n⟩ ≠
          (s.object a).contents.lookup ⟨.queue, n⟩ := by
        intro same
        rw [Queue.Stored, mem_iff_lookup, ← same, ← mem_iff_lookup] at stored
        exact gone stored
      cases next life i a n req later fetched with
      | holds _ entry => exact absurd entry kept
      | removed _ _ may => exact may
      | returned _ _ _ entry => exact absurd entry kept
    · have free : ∀ j, ¬Holds s j a n := fun j other => held ⟨j, other⟩
      exact .inr ⟨free, free_removed settled life free stored gone⟩
  · obtain ⟨step, -⟩ := life
    have after := abort_returns settled held read type abort alone step
    obtain ⟨away, returned⟩ := after_giveBack (settled.sound a) after
    exact ⟨not_holds_closed (closed_giveBack after rfl), away, returned,
      after_entry after (held_below (settled.sound a) held) (by simp)⟩

def fitting (s : Server) : List ServerEvent → Option Server
  | [] => some s
  | event :: events =>
    match s.step event with
    | .ok t =>
      if t.objects.all fun q => q.queueHead.id < wordSize && q.chunksHead.id < wordSize then
        fitting t events
      else none
    | .error _ => none

theorem fits_objects (h : s.objects.all fun q => q.queueHead.id < wordSize &&
    q.chunksHead.id < wordSize) : Fits s := by
  have each : ∀ a, (s.object a).queueHead.id < wordSize ∧ (s.object a).chunksHead.id < wordSize := by
    refine Server.object_all
      (P := fun q => q.queueHead.id < wordSize ∧ q.chunksHead.id < wordSize) (fun q mem => ?_)
      ⟨Nat.two_pow_pos 64, Nat.two_pow_pos 64⟩
    simpa using List.all_eq_true.mp h q mem
  exact ⟨fun a => (each a).1, fun a => (each a).2⟩

theorem fitting_cons {event : ServerEvent} {events : List ServerEvent}
    (run : fitting s (event :: events) = some s') :
    ∃ t, Life s (.event event) t ∧ fitting t events = some s' := by
  unfold fitting at run
  split at run
  case h_1 t step =>
    split at run
    case isTrue fits => exact ⟨t, .event step (fits_objects fits), run⟩
    case isFalse => cases run
  case h_2 => cases run

/-- The server after events that all find the socket call of connection `i` as `busy` says,
with what `next` makes of them. -/
def during {α : Type} (busy : Pending → Bool) (i : ℕ)
    (next : α → Server → ServerEvent → Server → α) :
    Server × α → List ServerEvent → Option (Server × α)
  | p, [] => some p
  | (s, a), event :: events =>
    if busy (s.conn i).pending then
      (fitting s [event]).bind fun t => during busy i next (t, next a s event t) events
    else none

theorem during_cons {α : Type} {a : α} {busy : Pending → Bool}
    {next : α → Server → ServerEvent → Server → α} {p : Server × α} {event : ServerEvent}
    {events : List ServerEvent} (run : during busy i next (s, a) (event :: events) = some p) :
    busy (s.conn i).pending = true ∧
      ∃ t, Life s (.event event) t ∧ during busy i next (t, next a s event t) events = some p := by
  unfold during at run
  split at run
  case isFalse => cases run
  case isTrue held =>
    obtain ⟨t, first, rest⟩ := Option.bind_eq_some_iff.mp run
    obtain ⟨u, life, same⟩ := fitting_cons first
    obtain rfl := Option.some.inj same
    exact ⟨held, u, life, rest⟩

/-- A run that `during` computes is one of the steps that its events make. -/
theorem runs_during {α σ ε : Type} {busy : Pending → Bool}
    {next : α → Server → ServerEvent → Server → α} {step : σ → ε → σ → Prop}
    (label : ServerEvent → ε) (view : Server × α → σ) {p p' : Server × α}
    {events : List ServerEvent}
    (each : ∀ event ∈ events, ∀ s a t, busy (s.conn i).pending = true →
      Life s (.event event) t → step (view (s, a)) (label event) (view (t, next a s event t)))
    (run : during busy i next p events = some p') :
    Runs step (view p) (events.map label) (view p') := by
  induction events generalizing p with
  | nil =>
    rw [← Option.some.inj run]
    exact .nil _
  | cons event events ih =>
    obtain ⟨held, t, life, rest⟩ := during_cons run
    exact .cons (each event List.mem_cons_self _ _ t held life)
      (ih (fun e mem => each e (List.mem_cons_of_mem _ mem)) rest)

theorem during_keeps {α : Type} {busy : Pending → Bool}
    {next : α → Server → ServerEvent → Server → α} {P : Server × α → Prop} {p p' : Server × α}
    {events : List ServerEvent}
    (keep : ∀ event s a t, busy (s.conn i).pending = true → Life s (.event event) t →
      P (s, a) → P (t, next a s event t))
    (run : during busy i next p events = some p') (start : P p) : P p' := by
  have runs : Runs (fun p _ p' => P p → P p') p (events.map id) p' :=
    runs_during id id (fun event _ s a t held life => keep event s a t held life) run
  exact runs.preserves (fun _ _ _ _ holds step => step holds) (fun _ _ => trivial) start

theorem reachable_fitting {events : List ServerEvent} (reach : Reachable Life start s)
    (run : fitting s events = some s') : Reachable Life start s' := by
  induction events generalizing s with
  | nil =>
    rw [← Option.some.inj run]
    exact reach
  | cons event events ih =>
    obtain ⟨t, life, rest⟩ := fitting_cons run
    exact ih (reach.next life) rest

def openFetch : List ServerEvent :=
  let env : Env := ⟨fun _ => true, 0, 0, 0⟩
  [.accept, .recv 0 (ascii "set q 0 0 1\r\n"), .readDone 0 env, .recv 0 (ascii "x\r\n"),
    .readDone 0 env, .writeDone 0 env, .recv 0 (ascii "get q/open\r\n"), .readDone 0 env,
    .writeDone 0 env, .recv 0 (ascii "get q/close\r\n")]

theorem reliable_fetch_open_close : ∃ s s' : Server, Reachable Life (.empty 64 [47]) s ∧
    Holds s 0 0 0 ∧ (s.object 0).Stored 0 ∧
    Life s (.event (.readDone 0 ⟨fun _ => true, 0, 0, 0⟩)) s' ∧ ¬(s'.object 0).Stored 0 ∧
    ∃ i req later, Fetched (.empty 64 [47]) i 0 0 req later s ∧
      MayRemove i 0 0 req later (.readDone 0 ⟨fun _ => true, 0, 0, 0⟩) s s' := by
  have facts : (fitting (.empty 64 [47]) openFetch).map (fun s =>
      ((s.conn 0).popStream.queue, (s.conn 0).popStream.id,
        decide ((⟨.queue, 0⟩ : Key) ∈ (s.object 0).contents),
        (fitting s [.readDone 0 ⟨fun _ => true, 0, 0, 0⟩]).map fun s' =>
          decide ((⟨.queue, 0⟩ : Key) ∈ (s'.object 0).contents))) =
      some (some 0, 0, true, some false) := by decide
  cases run : fitting (.empty 64 [47]) openFetch with
  | none => simp [run] at facts
  | some s =>
    simp only [run, Option.map_some, Option.some.injEq, Prod.mk.injEq, decide_eq_true_eq] at facts
    obtain ⟨isOpen, id, stored, last⟩ := facts
    have held : Holds s 0 0 0 := ⟨isOpen, id⟩
    have reach : Reachable Life (.empty 64 [47]) s := reachable_fitting .refl run
    obtain ⟨s', next, gone⟩ := Option.map_eq_some_iff.mp last
    obtain ⟨t, life, rfl⟩ : ∃ t, Life s _ t ∧ t = s' := by
      obtain ⟨t, life, rest⟩ := fitting_cons next
      exact ⟨t, life, Option.some.inj rest⟩
    have lost : ¬(t.object 0).Stored 0 := by simpa [Queue.Stored] using gone
    refine ⟨s, t, reach, held, stored, life, lost, ?_⟩
    obtain ⟨-, -, -, -, each⟩ := reliable_fetch (by decide) reach
    rcases (each _ t life).2.1 0 0 stored lost with may | ⟨free, -⟩
    · exact may
    · exact absurd held (free 0)

end Darner.ReliableFetch
