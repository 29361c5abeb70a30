import Darner.AcknowledgedSets
import Darner.DeletedQueues
import Darner.Dialogues

/-! Sets with `/sync`. The entry of such a set is in the part of the journal that no crash
takes away when the client is told that its item is stored. From then on the item is in the
queue of its name, also over crashes and starts, until a client has taken it out or the queue
is deleted. -/

namespace Darner.SyncedSets
open QueueRecovery
open OrderedStore LabelledRuns StreamMoves QueuePartition HoldingQueues ReadProgress ServerMoves ServerWaiters
open FetchDeeds FetchEvents ReliableFetch ServerCalls SetProgress ChunkStore SetBodies StoredItems
open QueueDirectories DeletedQueues AcknowledgedSets ItemValues BrokerRefinement
open Conversations ItemLedger Dialogues
open Broker (Restores)
open BrokerGets (Stands)
open GetReplies (change_records)
open BrokerSets (Put consumed_put item_stored length_received)

variable {s s' t u : Server} {event : ServerEvent} {i j address id n : ℕ} {c c' : Config} {value name : Bytes}
  {stream : OQStream} {q : Queue} {io : Io}

def Synced (s : Server) : Prop :=
  ∀ j n, (s.conn j).pending = .readChunk n → (s.conn j).pushStream.sync = (s.conn j).req.setSync

theorem sync_write (stream : OQStream) (q : Queue) (chunk : Bytes) (stray : UInt8) (io : Io) :
    (stream.write q chunk stray io).2.1.sync = stream.sync := by
  rcases stream.write_cases q chunk stray io with
    ⟨-, h⟩ | ⟨-, -, ⟨e, -, h⟩ | ⟨stream', q', store, h⟩⟩
  · rw [h]
  · rw [h]
  · have stored : stream'.sync = stream.sync := by
      rcases OQStream.store_ok store with ⟨-, id, -, rfl⟩ | ⟨-, -, rfl⟩ <;> rfl
    rw [h, ← stored]
    rcases (stream'.advance chunk.length).finish_cases q' (io 1) with
      ⟨-, h⟩ | ⟨-, -, h⟩ | ⟨-, -, ⟨e, h⟩ | ⟨id, q'', push, h⟩⟩ <;> rw [h] <;> rfl

structure Same (h h' : Handler) : Prop where
  req : h'.req = h.req
  sync : h'.pushStream.sync = h.pushStream.sync

theorem Same.trans {h h' h'' : Handler} (first : Same h h') (second : Same h' h'') : Same h h'' :=
  ⟨second.req.trans first.req, second.sync.trans first.sync⟩

theorem same_reply {text : Bytes} {next : Next} (there : i < s.conns.length) :
    Same (s.conn i) ((s.reply i text next).conn i) := by
  rw [conn_reply there]
  exact ⟨rfl, rfl⟩

theorem same_storeChunk (chunk : Bytes) (env : Env) (there : i < s.conns.length) :
    Same (s.conn i) ((s.storeChunk i chunk env).conn i) := by
  have wrote : Same (s.conn i) ((s.pushWrite i chunk env.stray env.io).2.conn i) ∧
      i < (s.pushWrite i chunk env.stray env.io).2.conns.length := by
    unfold Server.pushWrite
    split
    · exact ⟨⟨rfl, rfl⟩, there⟩
    · rw [Server.conn_setObject_setConn _ _ _ there]
      exact ⟨⟨rfl, sync_write _ _ _ _ _⟩, lt_of_lt_of_eq there List.length_set.symm⟩
  unfold Server.storeChunk
  rcases result : s.pushWrite i chunk env.stray env.io with ⟨outcome, t⟩
  rw [result] at wrote
  obtain ⟨same, there'⟩ := wrote
  cases outcome with
  | error e => exact same.trans (same_reply there')
  | ok =>
    dsimp only
    split
    · exact same.trans (same_reply (s := { t with stats := _ }) there')
    · refine same.trans ?_
      rw [conn_readNextChunk there']
      exact ⟨rfl, rfl⟩

theorem same_setOnReadChunk {env : Env} (there : i < s.conns.length) :
    Same (s.conn i) ((s.setOnReadChunk i env).conn i) := by
  unfold Server.setOnReadChunk
  dsimp only
  split
  · split
    · exact same_reply there
    · obtain ⟨t, same, there', conn, -⟩ := consumed ((s.conn i).inBuf.drop
        ((s.conn i).req.numBytes - (s.conn i).pushStream.tell + 2)) there
      rw [same]
      have stored := same_storeChunk ((s.conn i).inBuf.take
        ((s.conn i).req.numBytes - (s.conn i).pushStream.tell)) env there'
      rw [conn] at stored
      exact ⟨stored.req, stored.sync⟩
  · obtain ⟨t, same, there', conn, -⟩ := consumed ((s.conn i).inBuf.drop s.chunkSize) there
    rw [same]
    have stored := same_storeChunk ((s.conn i).inBuf.take s.chunkSize) env there'
    rw [conn] at stored
    exact ⟨stored.req, stored.sync⟩

theorem call_synced {deletes : Bytes → Prop} (s s' : Server) (there : i < s.conns.length)
    (synced : Synced s) (call : Call i io deletes s s') : Synced s' := by
  intro j n pending
  by_cases same : j = i
  case neg =>
    rw [call.others there same] at pending ⊢
    exact synced j n pending
  subst same
  rcases Call.awaits there call pending with
    ⟨conn, -⟩ | ⟨-, opened, rfl⟩ | ⟨rfl⟩ | ⟨reading, -, rfl⟩
  · rw [conn] at pending ⊢
    exact synced j n pending
  · obtain ⟨closed, rfl⟩ := pushOpen_ok opened
    rw [conn_readNextChunk (lt_of_lt_of_eq there List.length_set.symm),
      Server.conn_setObject_setConn _ _ _ there]
    simp only [OQStream.open_, closed, Option.isSome_none, Bool.false_eq_true, if_false]
  · rename_i data
    rcases recv_cases s j data with same | ⟨-, ⟨line, -, same⟩ | ⟨m, -, reading, same⟩⟩
    · rw [same] at pending ⊢
      exact synced j n pending
    · rw [same, Server.conn_setConn_self _ there] at pending
      rw [show (s.conn j).pending = .readChunk n from pending] at line
      cases line
    · rw [same, Server.conn_setConn_self _ there]
      exact synced j m reading
  · rename_i env m
    have kept : Same (s.conn j) ((s.setOnReadChunk j env).conn j) := same_setOnReadChunk there
    rw [kept.req, kept.sync]
    exact synced j _ reading

theorem step_synced {event : ServerEvent} (awake : Awake none s) (synced : Synced s)
    (run : s.Step event s') : Synced s' := by
  cases step_serves awake run with
  | nothing => exact synced
  | accept =>
    intro j n pending
    rcases conn_accept s _ j with same | new
    · rw [same] at pending ⊢
      exact synced j n pending
    · rw [new] at pending
      cases pending
  | expire a node => exact synced
  | @calls i t u _ who there begins calls leaves =>
    have start : Synced t := by
      cases begins with
      | ready => exact synced
      | woken => exact synced
    obtain ⟨there', still⟩ := calls.invariant call_synced (begins.conns ▸ there) start
    cases leaves with
    | done => exact still
    | waits found closed empty =>
      intro j n
      rw [conn_waits there']
      split
      case isTrue =>
        intro pending
        cases pending
      case isFalse => exact still j n

theorem synced_started (started : s.Started) : Synced s := by
  intro j n pending
  rw [started.closed j] at pending
  cases pending

/-- The item can be read from whatever a crash leaves of the journal. -/
def Lasting (q : Queue) (id : ℕ) (value : Bytes) : Prop :=
  q.journal.Lasts fun image => itemAt image id = some value

theorem Lasting.item (lasting : Lasting q id value) : itemAt q.contents id = some value :=
  Journal.Lasts.contents lasting

theorem Lasting.stored (lasting : Lasting q id value) : q.Stored id := mem_of_itemAt lasting.item

theorem move_lasting (sound : Sound c) (below : id < c.queue.queueHead.id)
    (lasting : Lasting c.queue id value) (move : Move (· < wordSize) (· ≠ []) c c')
    (stored : c'.queue.Stored id) : Lasting c'.queue id value := by
  obtain ⟨-, kept⟩ := move_item sound.cons below move stored
  have item : itemAt c'.queue.contents id = some value := kept.trans lasting.item
  rcases CrashConsistency.move_journal sound.cons.own.head_type move with same | ⟨entry, written, -⟩
  · rwa [Lasting, same]
  · rw [Queue.contents, written] at item
    rw [Lasting, written]
    exact Journal.Lasts.write lasting item

structure Persists (id : ℕ) (value : Bytes) (c : Config) : Prop where
  sound : Sound c
  below : id < c.queue.queueHead.id
  lasting : c.queue.Stored id → Lasting c.queue id value

theorem change_kept (c c' : Config) (kept : Persists id value c) (change : Change c c') :
    Persists id value c' := by
  have sound' := change_sound c c' kept.sound change
  cases change with
  | move move =>
    have head := (itemInvariant_head c.queue.queueHead.id).move c c' (le_refl _) move
    refine ⟨sound', lt_of_lt_of_le kept.below head, fun stored => ?_⟩
    obtain ⟨before, -⟩ := move_item kept.sound.cons kept.below move stored
    exact move_lasting kept.sound kept.below (kept.lasting before) move stored
  | @unseen q q' readers writers unseen =>
    refine ⟨sound', ?_, fun stored => ?_⟩
    · dsimp only
      rw [unseen.head]
      exact kept.below
    · have contents : q'.contents = q.contents := congrArg Journal.contents unseen.journal
      rw [Queue.Stored, contents] at stored
      have lasting := kept.lasting stored
      dsimp only
      rwa [Lasting, unseen.journal]

theorem changes_lasting (sound : Sound c) (lasting : Lasting c.queue id value)
    (changes : Changes c c') (stored : c'.queue.Stored id) : Lasting c'.queue id value := by
  have start : Persists id value c :=
    ⟨sound, stored_lt_head sound.cons.own lasting.stored, fun _ => lasting⟩
  exact (changes.invariant change_kept start).lasting stored

/-- An event of the loop and what it shows, or a crash and a start. A crash takes away no write
that was synced, and none that stands before one in its journal. -/
inductive Endures : Server → Broker.Label → Server → Prop where
  | event {s s' : Server} {event : ServerEvent} (life : Life s (.event event) s') :
      Endures s (shown s event s') s'
  | crash {s s' : Server} {kept : ℕ → ℕ}
      (safe : ∀ a, (s.object a).journal.durable ≤ kept a) (again : Restarts s kept s') :
      Endures s .restart s'

theorem load_opened {entries : List DirectoryEntry} (h : load s entries = some s') :
    ∀ q ∈ s'.objects, q ∈ s.objects ∨
      ∃ entry ∈ entries, Queue.new entry.2 (s.pathOf entry.1) = some q := by
  induction entries generalizing s with
  | nil =>
    obtain rfl := Option.some.inj h
    exact fun q mem => .inl mem
  | cons entry entries ih =>
    obtain ⟨first, image⟩ := entry
    rw [load] at h
    split at h
    · cases h
    case h_2 q₀ new =>
      intro q mem
      rcases ih h q mem with old | ⟨entry, mem, new'⟩
      · rcases List.mem_append.mp old with old | last
        · exact .inl old
        · obtain rfl := List.mem_singleton.mp last
          exact .inr ⟨_, List.mem_cons_self, new⟩
      · exact .inr ⟨entry, List.mem_cons_of_mem _ mem, new'⟩

theorem restarts_restarted {kept : ℕ → ℕ} (pos : 0 < s.chunkSize) (sited : Sited s)
    (again : Restarts s kept s') : Restarted s s' := by
  refine ⟨(restarts_loaded pos again).toStarted, fun q mem => ?_⟩
  obtain ⟨entries, perm, -, h⟩ := again
  rcases load_opened h q mem with old | ⟨⟨first, image⟩, mem, new⟩
  · cases old
  · obtain ⟨-, a, -, -, rfl⟩ := (mem_directory sited).mp (perm.mem_iff.mp mem)
    exact ⟨a, _, _, new⟩

structure Standing (s : Server) : Prop where
  firm : Firm s
  housed : Housed s
  synced : Synced s

theorem Endures.shows {label : Broker.Label} (standing : Standing s)
    (endures : Endures s label s') : Shows s label s' := by
  cases endures with
  | event life => exact .event life
  | crash safe again =>
    exact .restart (.restart (restarts_restarted standing.firm.steady.receives.pos
      standing.housed.sited again))

theorem endures_standing (s : Server) (label : Broker.Label) (s' : Server)
    (standing : Standing s) (endures : Endures s label s') : Standing s' := by
  obtain ⟨turn, life⟩ := (endures.shows standing).life
  have firm' := firm_life standing.firm life
  have awake := standing.firm.settled.awake
  cases endures with
  | event life =>
    cases life with
    | event step fits =>
      exact ⟨firm', step_housed awake standing.housed step,
        step_synced awake standing.synced step⟩
  | crash safe again =>
    have loaded := restarts_loaded standing.firm.steady.receives.pos again
    exact ⟨firm', housed_loaded loaded, synced_started loaded.toStarted⟩

theorem standing_empty {chunkSize : ℕ} {dataPath : Bytes} (pos : 0 < chunkSize) :
    Standing (.empty chunkSize dataPath) := by
  have started := Server.started_empty chunkSize dataPath pos
  refine ⟨firm_empty pos, housed_loaded ⟨started, fun name a found => ?_⟩,
    synced_started started⟩
  rw [Server.empty, Finmap.lookup_empty] at found
  cases found

theorem runs_standing {labels : List Broker.Label} (standing : Standing s)
    (run : Runs Endures s labels t) : Standing t :=
  run.preserves (fun s label s' _ => endures_standing s label s') (fun _ _ => trivial) standing

theorem runs_shows {labels : List Broker.Label} (standing : Standing s)
    (run : Runs Endures s labels t) : Runs Shows s labels t := by
  induction run with
  | nil s => exact .nil s
  | @cons s u t label labels first rest ih =>
    exact .cons (first.shows standing) (ih (endures_standing s label u standing first))

theorem path_of_filename (housed : Housed s) (live : s.live address = true) :
    (s.object address).path = s.pathOf (filename s address) := by
  by_cases registered : Registered s address
  · obtain ⟨name, found⟩ := registered
    have path := (housed.home found).1
    rw [filename_eq path, path]
  · obtain ⟨-, name, n, path⟩ := housed.away live registered
    rw [filename_eq path, path]

theorem crash_lasting {kept : ℕ → ℕ} (standing : Standing s)
    (found : s.queues.lookup name = some address) (inside : name ≠ ascii "..")
    (lasting : Lasting (s.object address) id value)
    (safe : ∀ a, (s.object a).journal.durable ≤ kept a) (again : Restarts s kept s') :
    ∃ b, s'.queues.lookup name = some b ∧ Lasting (s'.object b) id value := by
  have housed := standing.housed
  have loaded := restarts_loaded standing.firm.steady.receives.pos again
  have mem : (name, (s.object address).journal.imageAt (kept address)) ∈ directory s kept :=
    (mem_directory housed.sited).mpr ⟨inside, address, live_registered found,
      filename_eq (housed.home found).1, rfl⟩
  obtain ⟨b, found'⟩ := Finmap.mem_iff.mp ((restarts_mem again name).mpr ⟨_, mem⟩)
  refine ⟨b, found', ?_⟩
  obtain ⟨-, a, live, same, image⟩ := (mem_directory housed.sited).mp (restarts_items again found')
  have here : a = address := by
    refine housed.apart live (live_registered found) ?_
    rw [path_of_filename housed live, same, (housed.home found).1]
  subst here
  have made := loaded.registered _ _ found'
  obtain ⟨image', path, new⟩ := loaded.opened (s'.object b) (by simp [Server.object, made])
  have fresh := journal_new new
  rw [Queue.contents, fresh, Journal.contents_fresh] at image
  rw [Lasting, fresh]
  refine Journal.lasts_fresh ?_
  rw [← image]
  exact lasting _ (safe a)

/-- The last item that client `i` was sent since the last start is the item `id` of a queue, the
whole of it and under its name. -/
def Delivered (past : List Broker.Label) (i : ℕ) (name value : Bytes) (address id : ℕ) : Prop :=
  ∃ talk line, Passed past i talk ∧
    (talk.filter Exchange.isItem).getLast? = some (.item line name value address id)

/-- A `get` that does not hold the item has just sent the whole of it, or a client that was sent
the whole of it before closes it, or the queue is deleted. -/
inductive Ended (past : List Broker.Label) (name : Bytes) (id : ℕ) (value : Bytes) (s : Server)
    (event : ServerEvent) (s' : Server) : Prop where
  | sent {a i : ℕ} (found : s.queues.lookup name = some a) (sent : Sent i a id s s')
      (whole : Delivered (past ++ [shown s event s']) i name value a id)
  | closed {a i : ℕ} {last : Request} (found : s.queues.lookup name = some a)
      (held : Holds s i a id) (whole : Delivered past i name value a id)
      (read : parsed s i event = some last) (type : last.type = .get)
      (close : last.getClose = true)
  | deleted (deletes : Deletes s event name)

theorem shown_turn {heard said : Bytes} (turn : shown s event s' = .turn i heard said) :
    serving s event = some i := by
  unfold shown at turn
  split at turn
  case h_1 j who =>
    obtain ⟨rfl, -, -⟩ := Broker.Label.turn.inj turn
    exact who
  case h_2 who => split at turn <;> cases turn

theorem served_turned (settled : Settled s) (run : s.Step event s') (fits : Fits s')
    (mine : serving s event = some i) : Turned i event s s' := by
  cases event with
  | accept => cases mine
  | expire a node => cases mine
  | recv j data =>
    obtain rfl := Option.some.inj mine
    rw [← Except.ok.inj run]
    exact turned_recv settled
  | readDone j env =>
    obtain rfl := Option.some.inj mine
    exact turned_readDone settled run fits.chunks
  | readFailed j env =>
    obtain rfl := Option.some.inj mine
    rw [← Except.ok.inj run]
    exact turned_readFailed settled
  | writeDone j env =>
    obtain rfl := Option.some.inj mine
    rw [← Except.ok.inj run]
    exact turned_writeDone settled
  | writeFailed j env =>
    obtain rfl := Option.some.inj mine
    rw [← Except.ok.inj run]
    exact turned_writeFailed settled
  | callback a node env =>
    obtain ⟨w, due, rfl⟩ := Option.map_eq_some_iff.mp mine
    exact turned_due settled due run

theorem disowned (settled : Settled s) (life : Life s (.event event) s')
    (stored : (s.object address).Stored id) (gone : ¬(s'.object address).Stored id) :
    ¬(s'.object address).Owned (heldIds (config s' address)) id := by
  intro owned
  have sound := settled.sound address
  obtain ⟨bytes, entry⟩ := mem_iff_lookup.mp stored
  have records : Records id (some bytes) (config s address).queue (heldIds (config s address)) :=
    ⟨sound.cons.own, stored_lt_head sound.cons.own stored, fun _ => entry⟩
  have records' := (life_changes settled life address).invariant change_records records
  exact gone (mem_iff_lookup.mpr ⟨bytes, records'.entry owned⟩)

section Removal

variable {past : List Broker.Label} {base : Stock ℕ ℕ Bytes} {called : ℕ → Option Bytes}
  {b : Broker} {talk : ℕ → List Exchange}

/-- Who makes an event in which an item goes away held it between two requests, or was just sent
the whole of it. -/
theorem removed_delivered (standing : Standing s) (describes : Describes s b)
    (ledger : Ledger base called past b talk) (life : Life s (.event event) s')
    (named : s'.queues.lookup name = some address)
    (item : itemAt (s.object address).contents id = some value)
    (gone : ¬(s'.object address).Stored id) :
    ∃ i, serving s event = some i ∧
      (¬Midway (b.phases i) ∧ Holds s i address id ∨
        Delivered (past ++ [shown s event s']) i name value address id) := by
  have settled := standing.firm.settled
  have sound := settled.sound address
  have stored := mem_of_itemAt item
  obtain ⟨deals, b', step, describes'⟩ := step_acts standing.firm describes life
  obtain ⟨base', called', talk', ledger', earned⟩ := ledger_step ledger step
  have does := step_does step shown_live
  have entry := describes.stocked.entry sound item
  have entry' := getElem_prefix (Stock.runs_entries does address) entry
  have left := disowned settled life stored gone
  have lost : b'.stock.Gone address id := by
    refine ⟨(List.getElem?_eq_some_iff.mp entry').1, fun mem => ?_, fun ⟨c, held⟩ => ?_⟩
    · exact left (.inl ((describes'.stocked.available address id).mp mem))
    · exact left (.inr ((describes'.stocked.holds c address id).mp held).mem)
  have before : ¬b.stock.Gone address id := by
    rintro ⟨-, out, free⟩
    rcases sound.cons.own.covered id stored with available | held
    · exact out ((describes.stocked.available address id).mpr available)
    · obtain ⟨c, held⟩ := holds_of_mem held
      exact free ⟨c, (describes.stocked.holds c address id).mpr held⟩
  obtain ⟨i, forgotten⟩ := ((Stock.runs_gone does).mp lost).resolve_left before
  obtain ⟨⟨heard, said, turn⟩, earned⟩ := earned i address id forgotten
  refine ⟨i, shown_turn turn, ?_⟩
  rcases earned forgotten with ⟨calm, held⟩ | last
  · exact .inl ⟨calm, (describes.stocked.holds i address id).mp held⟩
  · have found : b'.names.lane.lookup name = some address := by rwa [describes'.names]
    obtain ⟨line, last⟩ := ledger'.last_item found entry' last
    exact .inr ⟨talk' i, line, (ledger'.talks i).passed, last⟩

theorem held_delivered {last : Request} (standing : Standing s) (describes : Describes s b)
    (ledger : Ledger base called past b talk) (found : s.queues.lookup name = some address)
    (item : itemAt (s.object address).contents id = some value) (held : Holds s i address id)
    (read : parsed s i event = some last) : Delivered past i name value address id := by
  have reading := reading_parsed read
  have calm : ¬Midway (b.phases i) := by
    rw [stands_readUntil reading (describes.stands i)]
    exact False.elim
  have holding := (describes.stocked.holds i address id).mpr held
  have last := (ledger.books.held i address id holding).resolve_left calm
  have entry := describes.stocked.entry (standing.firm.settled.sound address) item
  have named : b.names.lane.lookup name = some address := by rwa [describes.names]
  obtain ⟨line, last⟩ := ledger.last_item named entry last
  exact ⟨talk i, line, (ledger.talks i).passed, last⟩

theorem stands_serving {phase : Broker.Phase} (serving : Serving (s.conn i))
    (stands : Stands s i phase) : Midway phase := by
  obtain ⟨text, writes⟩ := serving
  cases stands <;> simp_all [Midway]

/-- The two ways in which an event removes an item. -/
theorem effect_removes (effect : Effect i event s s')
    (below : id < (s.object address).queueHead.id)
    (left : (s'.object address).contents.lookup ⟨.queue, id⟩ ≠
      (s.object address).contents.lookup ⟨.queue, id⟩) :
    (Sent i address id s s' ∧ (Holds s i address id → Serving (s.conn i))) ∨
    (Holds s i address id ∧
      ∃ last, parsed s i event = some last ∧ last.type = .get ∧ last.getClose = true) := by
  have removes : ∀ {deeds}, After i deeds s s' → Deed.remove address id ∈ deeds := fun after =>
    by_contra fun out => left (after_entry after below out)
  cases effect with
  | calm calm _ => exact absurd ((calm.quiet address).entries id below) left
  | took after | tookReturned after | returned after => simpa using removes after
  | tookRemoved after sent =>
    obtain ⟨rfl, rfl⟩ : address = _ ∧ id = _ := by simpa using removes after
    exact .inl ⟨sent, fun held => absurd held (not_holds_closed (closed_before_take after))⟩
  | finished after serving _ sent =>
    obtain ⟨rfl, rfl⟩ : address = _ ∧ id = _ := by simpa using removes after
    exact .inl ⟨sent, fun _ => serving⟩
  | closed read type close after =>
    obtain ⟨rfl, rfl⟩ : address = _ ∧ id = _ := by simpa using removes after
    exact .inr ⟨held_remove after, _, read, type, close⟩
  | closedTook read type close _ after =>
    obtain ⟨rfl, rfl⟩ : address = _ ∧ id = _ := by simpa using removes after
    exact .inr ⟨held_remove after, _, read, type, close⟩

theorem Standing.removed (standing : Standing s) (describes : Describes s b)
    (ledger : Ledger base called past b talk) (life : Life s (.event event) s')
    (found : s.queues.lookup name = some address) (named : s'.queues.lookup name = some address)
    (item : itemAt (s.object address).contents id = some value)
    (gone : ¬(s'.object address).Stored id) : Ended past name id value s event s' := by
  have settled := standing.firm.settled
  have stored : (s.object address).Stored id := mem_of_itemAt item
  have left : (s'.object address).contents.lookup ⟨.queue, id⟩ ≠
      (s.object address).contents.lookup ⟨.queue, id⟩ := by
    intro entry
    rw [Queue.Stored, mem_iff_lookup, ← entry, ← mem_iff_lookup] at stored
    exact gone stored
  obtain ⟨i, mine, whole⟩ := removed_delivered standing describes ledger life named item gone
  have effect : Effect i event s s' := by
    obtain ⟨step, fits⟩ := life
    exact (served_turned settled step fits mine).effect
  rcases effect_removes effect (stored_below (settled.sound address) stored) left with
    ⟨sent, serving⟩ | ⟨held, last, read, type, close⟩
  · -- an item that is held and being sent is not held between two requests
    refine .sent found sent (whole.resolve_left ?_)
    rintro ⟨calm, held⟩
    exact calm (stands_serving (serving held) (describes.stands i))
  · exact .closed found held (held_delivered standing describes ledger found item held read)
      read type close

theorem event_lasting (standing : Standing s) (describes : Describes s b)
    (ledger : Ledger base called past b talk) (life : Life s (.event event) s')
    (found : s.queues.lookup name = some address)
    (lasting : Lasting (s.object address) id value) :
    s'.queues.lookup name = some address ∧ Lasting (s'.object address) id value ∨
      Ended past name id value s event s' := by
  have settled := standing.firm.settled
  by_cases deletes : Deletes s event name
  · exact .inr (.deleted deletes)
  have named : s'.queues.lookup name = some address := by
    cases life with
    | event step => exact step_lookup settled.awake found deletes step
  by_cases stored : (s'.object address).Stored id
  · have changes := life_changes settled life address
    exact .inl ⟨named, changes_lasting (settled.sound address) lasting changes stored⟩
  · exact .inr (standing.removed describes ledger life found named lasting.item stored)

end Removal

structure InPlace (s : Server) (name : Bytes) (id : ℕ) (value : Bytes) (address : ℕ) : Prop where
  registered : s.queues.lookup name = some address
  item : itemAt (s.object address).contents id = some value
  place : (s.object address).Available id ∨ ∃ j, Holds s j address id

/-- The item is where no crash can take it. -/
structure Secured (name : Bytes) (id : ℕ) (value : Bytes) (s : Server) : Prop where
  standing : Standing s
  lasting : ∃ a, s.queues.lookup name = some a ∧ Lasting (s.object a) id value

theorem Secured.inPlace (secured : Secured name id value s) : ∃ a, InPlace s name id value a := by
  obtain ⟨a, found, lasting⟩ := secured.lasting
  have sound := secured.standing.firm.settled.sound a
  refine ⟨a, found, lasting.item, ?_⟩
  rcases sound.cons.own.covered id lasting.stored with available | held
  · exact .inl available
  · exact .inr (holds_of_mem held)

theorem endures_secured {chunkSize : ℕ} {dataPath : Bytes} {past : List Broker.Label}
    {label : Broker.Label} (pos : 0 < chunkSize)
    (before : Runs Endures (.empty chunkSize dataPath) past s) (inside : name ≠ ascii "..")
    (secured : Secured name id value s) (endures : Endures s label s') :
    Secured name id value s' ∨
      ∃ event, label = shown s event s' ∧ s.Step event s' ∧ Ended past name id value s event s' := by
  obtain ⟨standing, a, found, lasting⟩ := secured
  have standing' := endures_standing s label s' standing endures
  cases endures with
  | @event _ event life =>
    obtain ⟨base, called, talk, b, describes, ledger⟩ :=
      server_ledger pos (runs_shows (standing_empty pos) before)
    rcases event_lasting standing describes ledger life found lasting with ⟨found', lasting'⟩ | ended
    · exact .inl ⟨standing', a, found', lasting'⟩
    · cases life with
      | event step => exact .inr ⟨event, rfl, step, ended⟩
  | crash safe again =>
    exact .inl ⟨standing', crash_lasting standing found inside lasting safe again⟩

theorem lasting_published {chunk : Bytes} {stray : UInt8} (sync : stream.sync = true)
    (item : itemAt (published stream q chunk stray).contents id = some value) :
    Lasting (published stream q chunk stray) id value := by
  unfold published at item ⊢
  split
  case isTrue single =>
    rw [if_pos single, CrashConsistency.contents_wakeUp] at item
    rw [Lasting, CrashConsistency.journal_wakeUp]
    exact Journal.lasts_synced sync item
  case isFalse multi =>
    rw [if_neg multi, CrashConsistency.contents_wakeUp] at item
    rw [Lasting, CrashConsistency.journal_wakeUp]
    exact Journal.lasts_synced sync item

def lastChunk (h : Handler) : Bytes := h.inBuf.take (h.req.numBytes - h.pushStream.tell)

theorem setOnReadChunk_stored {env : Env} (steady : Steady s)
    (reading : (s.conn i).pending = .readChunk n)
    (enough : n = 0 ∨ s.capacity ≤ (s.conn i).inBuf.length)
    (isOpen : (s.conn i).pushStream.queue = some address)
    (answer : ((s.setOnReadChunk i env).conn i).pending =
      .write (ascii "STORED\r\n") .readRequest) :
    (s.setOnReadChunk i env).object address =
      published (s.conn i).pushStream (s.object address) (lastChunk (s.conn i)) env.stray ∧
    (s.conn i).pushStream.chunkPos + 1 = (s.conn i).pushStream.header.end_ ∧
    (s.conn i).pushStream.tell + (lastChunk (s.conn i)).length = (s.conn i).req.numBytes ∧
    (s.conn i).inBuf.take (required s.chunkSize (s.conn i)) =
      lastChunk (s.conn i) ++ ascii "\r\n" := by
  have there : i < s.conns.length := Server.conn_there (by simp [reading])
  have receiving := steady.receives.reading i n reading
  have filling := receiving.filling
  have told := filling.told_le
  have buffered := receiving.buffered enough
  have made : address < s.objects.length := steady.sited.held i address (.inr isOpen)
  have took : Took i env s (s.setOnReadChunk i env) := setOnReadChunk_took there
    (fun a isOpen => steady.sited.held i a (.inr isOpen)) receiving enough
  cases took with
  | failed conn =>
    rw [conn] at answer
    cases answer
  | more conn =>
    rw [conn] at answer
    cases answer
  | stored _ conn last ending =>
    have final := filling.last last
    have full : (lastChunk (s.conn i)).length =
        (s.conn i).req.numBytes - (s.conn i).pushStream.tell := by
      unfold required at buffered
      dsimp only at buffered
      rw [if_neg (by omega)] at buffered
      rw [lastChunk, List.length_take]
      omega
    refine ⟨?_, final, by omega, ?_⟩
    · unfold Server.setOnReadChunk at answer ⊢
      dsimp only at answer ⊢
      rw [if_pos last, if_neg (not_not.mpr ending)] at answer ⊢
      have ends : (s.conn i).pushStream.tell + (lastChunk (s.conn i)).length =
          (s.conn i).req.numBytes ↔
          (s.conn i).pushStream.chunkPos + 1 = (s.conn i).pushStream.header.end_ :=
        iff_of_true (by omega) final
      obtain ⟨t, same, conn, objects, put⟩ := consumed_put ((s.conn i).inBuf.drop
        ((s.conn i).req.numBytes - (s.conn i).pushStream.tell + 2)) env there isOpen filling.stop ends
      rw [same] at answer ⊢
      cases put with
      | failed e pending =>
        rw [← lastChunk, pending] at answer
        cases answer
      | more _ conn' =>
        rw [← lastChunk, conn'] at answer
        cases answer
      | stored _ _ objects' =>
        have object : t.object address = s.object address := by
          rw [Server.object, objects, Server.object]
        rw [← lastChunk, object_of_objects (objects ▸ made) objects', if_pos rfl, object, conn]
    · unfold required
      dsimp only
      rw [if_neg (by omega), List.take_add, ending]
      rfl

theorem stored_secured {labels : List Broker.Label} {env : Env} (standing : Standing s)
    {base : Stock ℕ ℕ Bytes} {called : ℕ → Option Bytes} {b : Broker} {talk : ℕ → List Exchange}
    (describes : Describes s b) (ledger : Ledger base called labels b talk)
    (life : Life s (.event (.readDone i env)) s') (reading : (s.conn i).pending = .readChunk n)
    (answer : (s'.conn i).pending = .write (ascii "STORED\r\n") .readRequest)
    (sync : (s.conn i).req.setSync = true)
    (aimed : ∀ a, (s.conn i).pushStream.queue = some a →
      s.queues.lookup (s.conn i).req.queue = some a) :
    ∃ line body id value,
      line ++ body ++ ascii "\r\n" <:+ heardFrom i (labels ++ [shown s (.readDone i env) s']) ∧
      Request.parse line = some (s.conn i).req ∧ body.length = (s.conn i).req.numBytes ∧
      Restores body value ∧ Secured (s.conn i).req.queue id value s' := by
  have steady := standing.firm.steady
  have there : i < s.conns.length := Server.conn_there (by simp [reading])
  have standing' := endures_standing s _ s' standing (.event life)
  obtain ⟨address, isOpen, storing⟩ := stands_readChunk reading (describes.stands i)
  obtain ⟨heard₀, said₀, unfinished, heardAll, -⟩ := (ledger.talks i).unfinished
  rw [storing] at unfinished
  cases unfinished with
  | @storing line got req lane asked type here =>
  obtain ⟨step, fits⟩ := life
  simp only [Server.Step, Server.step, Server.readDone, reading] at step
  have length := length_received steady reading isOpen
  by_cases enough : n = 0 ∨ s.capacity ≤ (s.conn i).inBuf.length
  case neg =>
    rw [if_neg enough] at step
    rw [← Except.ok.inj step, reading] at answer
    cases answer
  rw [if_pos enough] at step
  obtain rfl := Except.ok.inj step
  obtain ⟨object, last, full, piece⟩ := setOnReadChunk_stored steady reading enough isOpen answer
  obtain ⟨value, restores, item⟩ := item_stored env.stray steady there isOpen
    (steady.receives.reading i n reading).filling.start last full.le
  refine ⟨line, _, (s.object address).queueHead.id, value, ?_, asked, ?_, restores, standing',
    address, ?_, ?_⟩
  · have turned : shown s (.readDone i env) (s.setOnReadChunk i env) ≠ .restart := by
      simp [shown, serving]
    have mine : serving s (.readDone i env) = some i := rfl
    rw [heardFrom_concat turned, heardIn_shown, if_pos mine, heardAll]
    simp only [heard, reading]
    rw [if_pos enough, piece]
    simp only [List.append_assoc]
    exact List.suffix_append _ _
  · rw [List.length_append, length, full]
  · rw [(keeps_setOnReadChunk there).queues]
    exact aimed address isOpen
  · rw [object]
    exact lasting_published ((standing.synced i n reading).trans sync) item

/-- An item whose set asked for `/sync` and was answered, in any life of the server, is in the
queue of its name ever after, whatever happens and wherever the server crashes, until a client
that was sent the whole of it has it removed, or its queue is deleted. Its queue must be the one
of that name when the set is answered, and inside the data directory. -/
theorem synced_item_stays {chunkSize : ℕ} {dataPath : Bytes} {labels later : List Broker.Label}
    {env : Env} (pos : 0 < chunkSize) (before : Runs Endures (.empty chunkSize dataPath) labels s)
    (life : Life s (.event (.readDone i env)) s') (reading : (s.conn i).pending = .readChunk n)
    (answer : (s'.conn i).pending = .write (ascii "STORED\r\n") .readRequest)
    (sync : (s.conn i).req.setSync = true)
    (aimed : ∀ a, (s.conn i).pushStream.queue = some a →
      s.queues.lookup (s.conn i).req.queue = some a)
    (inside : (s.conn i).req.queue ≠ ascii "..") (after : Runs Endures s' later t) :
    ∃ line body id value,
      line ++ body ++ ascii "\r\n" <:+ heardFrom i (labels ++ [shown s (.readDone i env) s']) ∧
      Request.parse line = some (s.conn i).req ∧ body.length = (s.conn i).req.numBytes ∧
      Restores body value ∧
      ((∃ a, InPlace t (s.conn i).req.queue id value a) ∨
        ∃ front event back u v, later = front ++ shown u event v :: back ∧
          Runs Endures s' front u ∧ u.Step event v ∧
          Ended (labels ++ shown s (.readDone i env) s' :: front) (s.conn i).req.queue id value u
            event v ∧
          Runs Endures v back t) := by
  have standing := runs_standing (standing_empty pos) before
  obtain ⟨base, called, talk, b, describes, ledger⟩ :=
    server_ledger pos (runs_shows (standing_empty pos) before)
  obtain ⟨line, body, id, value, sent, asked, whole, restores, secured⟩ :=
    stored_secured standing describes ledger life reading answer sync aimed
  refine ⟨line, body, id, value, sent, asked, whole, restores, ?_⟩
  rcases after.until_ended (fun _ _ v => ¬Secured (s.conn i).req.queue id value v)
    (fun _ _ _ _ _ => em _) secured with
    stays | ⟨front, label, back, u, v, rfl, first, endures, held, lost, last⟩
  · exact .inl stays.inPlace
  · right
    have history : Runs Endures (.empty chunkSize dataPath)
        (labels ++ shown s (.readDone i env) s' :: front) u :=
      before.append (.cons (.event life) first)
    obtain ⟨event, rfl, step, ended⟩ :=
      (endures_secured pos history inside held endures).resolve_left lost
    exact ⟨front, event, back, u, v, rfl, first, step, ended, last⟩

def okEnv : Env := ⟨fun _ => true, 0, 0, 0⟩

def syncedSet : List ServerEvent :=
  [.accept, .recv 0 (ascii "set q/sync 0 0 1\r\nx\r\n"), .readDone 0 okEnv]

def looseSet : List ServerEvent :=
  [.writeDone 0 okEnv, .recv 0 (ascii "set q 0 0 1\r\ny\r\n"), .readDone 0 okEnv,
    .readDone 0 okEnv]

def leastKept (s : Server) (a : ℕ) : ℕ := (s.object a).journal.durable

/-- The crash takes the second item away, and leaves the first. -/
theorem synced_item_stays_one : ∃ (s s' t u : Server) (labels later : List Broker.Label)
    (value : Bytes) (id : ℕ), Runs Endures (.empty 64 [47]) labels s ∧
    Runs Endures s' later t ∧ (t.object 0).count = 2 ∧ Restarts t (leastKept t) u ∧
    (u.object 0).count = 1 ∧
    ((∃ a, InPlace u (ascii "q") id value a) ∨
      ∃ front event back v w, later ++ [.restart] = front ++ shown v event w :: back ∧
        Runs Endures s' front v ∧ v.Step event w ∧
        Ended (labels ++ shown s (.readDone 0 okEnv) s' :: front) (ascii "q") id value v event w ∧
        Runs Endures w back u) := by
  have facts : ((showing (.empty 64 [47]) syncedSet).bind fun p =>
      (fitting p.1 [.readDone 0 okEnv]).bind fun s' => (showing s' looseSet).bind fun r =>
        (load (.empty r.1.chunkSize r.1.dataPath) (directory r.1 (leastKept r.1))).map fun u =>
          decide ((p.1.conn 0).pending = .readChunk 0 ∧
            (s'.conn 0).pending = .write (ascii "STORED\r\n") .readRequest ∧
            (p.1.conn 0).req.setSync = true ∧ (p.1.conn 0).pushStream.queue = some 0 ∧
            p.1.queues.lookup (p.1.conn 0).req.queue = some 0 ∧
            (p.1.conn 0).req.queue = ascii "q" ∧ (r.1.object 0).count = 2 ∧
            (u.object 0).count = 1 ∧
            ∀ entry ∈ directory r.1 (leastKept r.1), entry.1 ≠ ascii ".")) = some true := by decide
  obtain ⟨⟨s, labels⟩, before, facts⟩ := Option.bind_eq_some_iff.mp facts
  obtain ⟨s', step, facts⟩ := Option.bind_eq_some_iff.mp facts
  obtain ⟨⟨t, later⟩, after, facts⟩ := Option.bind_eq_some_iff.mp facts
  obtain ⟨u, loaded, facts⟩ := Option.map_eq_some_iff.mp facts
  obtain ⟨reading, answer, sync, isOpen, found, name, two, one, plain⟩ := of_decide_eq_true facts
  obtain ⟨_, life, same⟩ := fitting_cons step
  obtain rfl := Option.some.inj same
  have before := runs_showing (fun _ _ _ => Endures.event) before
  have after := runs_showing (fun _ _ _ => Endures.event) after
  have again : Restarts t (leastKept t) u := ⟨_, .refl _, plain, loaded⟩
  have crash : Endures t .restart u := .crash (fun _ => le_refl _) again
  have aimed : ∀ a, (s.conn 0).pushStream.queue = some a →
      s.queues.lookup (s.conn 0).req.queue = some a := by
    intro a isOpen'
    rw [found, ← isOpen', isOpen]
  have inside : (s.conn 0).req.queue ≠ ascii ".." := by
    rw [name]
    decide
  obtain ⟨-, -, id, value, -, -, -, -, last⟩ := synced_item_stays (by decide) before life reading
    answer sync aimed inside (after.append (.single crash))
  rw [name] at last
  exact ⟨s, _, t, u, labels, later, value, id, before, after, two, again, one, last⟩

end Darner.SyncedSets
