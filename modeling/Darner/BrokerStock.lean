import Darner.Broker
import Darner.ItemValues

/-! The stock of the broker, as the server has it: the items of a queue that can be popped
are available in a lane, those that the pop streams of the connections have are held. A
deed of a connection is an operation on the stock, and a calm call leaves the stock alone. -/

namespace Darner.BrokerStock
open OrderedStore LabelledRuns StreamMoves QueuePartition ReadProgress HoldingQueues
open ServerMoves FetchDeeds ReliableFetch Broker ItemValues

variable {s t u : Server} {stock : Stock ℕ ℕ Bytes} {i address id : ℕ}

structure Stocked (s : Server) (stock : Stock ℕ ℕ Bytes) : Prop where
  values : ∀ a, Values (stock.lanes a).entries (config s a)
  length : ∀ a, (stock.lanes a).entries.length = (s.object a).queueHead.id
  available : ∀ a n, n ∈ (stock.lanes a).available ↔ (s.object a).Available n
  held : ∀ j, stock.held j = (s.conn j).popStream.queue.map fun a => (a, (s.conn j).popStream.id)

theorem Stocked.holds (stocked : Stocked s stock) (j a n : ℕ) :
    stock.held j = some (a, n) ↔ Holds s j a n := by
  rw [stocked.held, Option.map_eq_some_iff, Holds]
  constructor
  · rintro ⟨b, isOpen, same⟩
    obtain ⟨rfl, rfl⟩ := Prod.mk.inj same
    exact ⟨isOpen, rfl⟩
  · rintro ⟨isOpen, rfl⟩
    exact ⟨a, isOpen, rfl⟩

theorem Stocked.free (stocked : Stocked s stock) (j : ℕ) :
    stock.held j = none ↔ (s.conn j).popStream.queue = none := by
  rw [stocked.held, Option.map_eq_none_iff]

theorem Stocked.entry (stocked : Stocked s stock) (sound : Sound (config s address)) {value : Bytes}
    (item : itemAt (s.object address).contents id = some value) :
    (stock.lanes address).entries[id]? = some value := by
  refine (stocked.values address).contents ?_ item
  rw [stocked.length]
  exact stored_lt_head sound.cons.own (mem_of_itemAt item)

theorem Stocked.nothing (stocked : Stocked s stock)
    (none : (s.object address).popBegin = none) : (stock.lanes address).available = ∅ := by
  obtain ⟨returned, level⟩ := Queue.popBegin_none.mp none
  refine Finset.eq_empty_of_forall_notMem fun n mem => ?_
  rcases (stocked.available address n).mp mem with old | range
  · rw [returned] at old
    cases old
  · omega

/-- What a deed of connection `i` is to the stock. -/
def deal (i : ℕ) : Deed → Deal
  | .take address id => .take i address id
  | .remove address id => .forget i address id
  | .giveBack address id => .giveBack i address id

def SameHeads (s t : Server) : Prop := ∀ a, (t.object a).queueHead = (s.object a).queueHead

theorem SameHeads.trans (first : SameHeads s t) (second : SameHeads t u) : SameHeads s u :=
  fun a => (second a).trans (first a)

theorem stocked_of {stock' : Stock ℕ ℕ Bytes} (sound : ∀ a, Sound (config s a))
    (stocked : Stocked s stock)
    (changes : ∀ a, Changes (config s a) (config t a)) (heads : SameHeads s t)
    (entries : ∀ a, (stock'.lanes a).entries = (stock.lanes a).entries)
    (available : ∀ a n, n ∈ (stock'.lanes a).available ↔ (t.object a).Available n)
    (held : ∀ j, stock'.held j =
      (t.conn j).popStream.queue.map fun a => (a, (t.conn j).popStream.id)) : Stocked t stock' where
  values a := by
    rw [entries]
    exact changes_values (sound a) (stocked.values a) (changes a)
  length a := by rw [entries, stocked.length, heads]
  available := available
  held := held

theorem held_calm (stocked : Stocked s stock) (calm : Calm i s t) (j : ℕ) :
    stock.held j = (t.conn j).popStream.queue.map fun a => (a, (t.conn j).popStream.id) := by
  by_cases mine : j = i
  · subst mine
    have same : ∀ a n, stock.held j = some (a, n) ↔ Holds t j a n := by
      intro a n
      rw [stocked.holds, calm.held]
    rw [Option.ext_iff]
    rintro ⟨a, n⟩
    rw [same, Option.map_eq_some_iff, Holds]
    constructor
    · rintro ⟨isOpen, rfl⟩
      exact ⟨a, isOpen, rfl⟩
    · rintro ⟨b, isOpen, pair⟩
      obtain ⟨rfl, rfl⟩ := Prod.mk.inj pair
      exact ⟨isOpen, rfl⟩
  · rw [stocked.held, calm.others j mine]

theorem stocked_calm (sound : ∀ a, Sound (config s a)) (stocked : Stocked s stock)
    (calm : Calm i s t) (heads : SameHeads s t) : Stocked t stock := by
  refine stocked_of sound stocked calm.changes heads (fun _ => rfl) ?_ (held_calm stocked calm)
  intro a n
  rw [stocked.available, Queue.Available, Queue.Available, heads, (calm.quiet a).tail,
    (calm.quiet a).returned]

theorem stocked_push {value : Bytes} (sound : ∀ a, Sound (config s a))
    (stocked : Stocked s stock) (calm : Calm i s t)
    (head : (t.object address).queueHead.id = (s.object address).queueHead.id + 1)
    (others : ∀ a ≠ address, (t.object a).queueHead = (s.object a).queueHead)
    (item : itemAt (t.object address).contents (s.object address).queueHead.id = some value) :
    Stocked t (stock.push address value) where
  values a := by
    have values := changes_values (sound a) (stocked.values a) (calm.changes a)
    rw [Stock.entries_push]
    split
    case isTrue same =>
      subst same
      rw [← stocked.length] at head item
      exact values.snoc head (mem_of_itemAt item) item
    case isFalse => rwa [List.append_nil]
  length a := by
    rw [Stock.entries_push, List.length_append, stocked.length]
    split
    case isTrue same => rw [same, head, List.length_singleton]
    case isFalse other => rw [others a other, List.length_nil, Nat.add_zero]
  available a n := by
    rw [Stock.mem_push, stocked.length, stocked.available, Queue.Available, Queue.Available,
      (calm.quiet a).tail, (calm.quiet a).returned]
    by_cases same : a = address
    · subst same
      have := (sound a).cons.own.tail_le_head
      change (s.object a).queueTail.id ≤ (s.object a).queueHead.id at this
      rw [head]
      constructor
      · rintro (⟨-, rfl⟩ | old | range)
        · exact .inr ⟨this, Nat.lt_succ_self _⟩
        · exact .inl old
        · exact .inr ⟨range.1, Nat.lt_succ_of_lt range.2⟩
      · rintro (old | range)
        · exact .inr (.inl old)
        · rcases Nat.lt_succ_iff_lt_or_eq.mp range.2 with below | rfl
          · exact .inr (.inr ⟨range.1, below⟩)
          · exact .inl ⟨rfl, rfl⟩
    · rw [others a same]
      simp [same]
  held j := by
    rw [Stock.held_push]
    exact held_calm stocked calm j

theorem stocked_take (ready : Ready i s) (stocked : Stocked s stock)
    (did : Did i (.take address id) s t) :
    ∃ stock', Stock.Does stock (.take i address id) stock' ∧ Stocked t stock' := by
  have changes := did.changes
  have heads : SameHeads s t := did_head did
  obtain ⟨there, closed, q, pop, rfl⟩ := did
  have own : (s.object address).Ownership (heldIds (config s address)) :=
    (ready.sound address).cons.own
  have made := popBegin_made pop
  have object : ∀ n, (((s.setObject address q).setConn i
      { s.conn i with popStream := { queue := some address, id := id } }).object address).Available n ↔
        n ≠ id ∧ (s.object address).Available n := by
    intro n
    rw [Server.object_setConn, Server.object_setObject_self q made]
    rcases Queue.popBegin_some pop with ⟨mem, -, rfl⟩ | ⟨none, -, rfl, rfl⟩
    · exact Queue.available_poppedReturned own mem n
    · exact Queue.available_poppedTail own none n
  have first : (s.object address).Available id ∧
      ∀ n, (s.object address).Available n → id ≤ n := by
    rcases Queue.popBegin_some pop with ⟨mem, least, -⟩ | ⟨none, ne, rfl, -⟩
    · refine ⟨.inl mem, ?_⟩
      rintro n (returned | ⟨tail, -⟩)
      · exact least n returned
      · exact (own.returned_lt id mem).le.trans tail
    · have := own.tail_le_head
      refine ⟨.inr ⟨le_refl _, by omega⟩, ?_⟩
      rintro n (returned | ⟨tail, -⟩)
      · rw [none] at returned
        cases returned
      · exact tail
  have mem := (stocked.available address id).mpr first.1
  refine ⟨_, .take ((stocked.free i).mpr closed) mem
    fun n available => first.2 n ((stocked.available address n).mp available), ?_⟩
  refine stocked_of ready.sound stocked changes heads (fun a => by rw [Stock.entries_take]) ?_ ?_
  · intro a n
    rw [Stock.mem_take, stocked.available]
    by_cases same : a = address
    · subst same
      simp [object]
    · rw [Server.object_setConn, Server.object_setObject_ne s q same]
      simp [same]
  · intro j
    rw [Stock.held_take]
    by_cases mine : j = i
    · subst mine
      rw [if_pos rfl, Server.conn_setObject_setConn address q _ there]
      rfl
    · rw [if_neg mine, stocked.held, Server.conn_setConn_ne _ _ mine]
      rfl

theorem stocked_ends {erase : Bool} (ready : Ready i s) (stocked : Stocked s stock)
    (ends : PopEnds i address id erase s t) :
    ∃ stock', Stock.Does stock
      (if erase then .forget i address id else .giveBack i address id) stock' ∧
      Stocked t stock' := by
  have changes := ends.changes
  have heads : SameHeads s t := fun a => (ends_object ends a).1
  obtain ⟨there, made, held, q, ok, stream, pop, closed, rfl⟩ := ends
  have mine := (stocked.holds i address id).mpr held
  have others : ∀ j, (if j = i then none else stock.held j) =
      ((((s.setObject address q).setConn i { s.conn i with popStream := stream }).conn
        j).popStream.queue.map fun a => (a, (((s.setObject address q).setConn i
          { s.conn i with popStream := stream }).conn j).popStream.id)) := by
    intro j
    by_cases self : j = i
    · subst self
      rw [if_pos rfl, Server.conn_setObject_setConn address q _ there]
      simp [closed]
    · rw [if_neg self, stocked.held, Server.conn_setConn_ne _ _ self]
      rfl
  cases erase with
  | true =>
    refine ⟨_, .forget mine, ?_⟩
    refine stocked_of ready.sound stocked changes heads (fun a => by rw [Stock.lanes_forget]) ?_ ?_
    · intro a n
      rw [Stock.lanes_forget, stocked.available, Server.object_setConn]
      by_cases same : a = address
      · subst same
        rw [Server.object_setObject_self q made]
        obtain ⟨m, ranges, rfl⟩ := Queue.popEnd_erase pop
        rfl
      · rw [Server.object_setObject_ne s q same]
    · intro j
      rw [Stock.held_forget]
      exact others j
  | false =>
    refine ⟨_, .giveBack mine, ?_⟩
    refine stocked_of ready.sound stocked changes heads (fun a => by rw [Stock.entries_giveBack]) ?_ ?_
    · intro a n
      rw [Stock.mem_giveBack, stocked.available, Server.object_setConn]
      by_cases same : a = address
      · subst same
        rw [Server.object_setObject_self q made]
        rw [Queue.popEnd_return] at pop
        rw [← Except.ok.inj pop, (Queue.sameItems_wakeUp _).available, Queue.available_putBack]
        simp
      · rw [Server.object_setObject_ne s q same]
        simp [same]
    · intro j
      rw [Stock.held_giveBack]
      exact others j

theorem stocked_did {deed : Deed} (ready : Ready i s) (stocked : Stocked s stock)
    (did : Did i deed s t) : ∃ stock', Stock.Does stock (deal i deed) stock' ∧ Stocked t stock' := by
  cases deed with
  | take a n => exact stocked_take ready stocked did
  | remove a n =>
    have ends : PopEnds i a n true s t := did
    exact stocked_ends ready stocked ends
  | giveBack a n =>
    have ends : PopEnds i a n false s t := did
    exact stocked_ends ready stocked ends

theorem after_heads {deeds : List Deed} (after : After i deeds s t) (a : ℕ) :
    (s.object a).queueHead.id ≤ (t.object a).queueHead.id := by
  induction deeds generalizing s with
  | nil => exact (Calm.quiet after a).head
  | cons deed deeds ih =>
    obtain ⟨u, u', calm, did, rest⟩ := after
    have first := (calm.quiet a).head
    rw [← did_head did a] at first
    exact first.trans (ih rest)

theorem sameHeads_of (ready : Ready i s) (ready' : Ready i t)
    (same : ∀ a, (t.object a).queueHead.id = (s.object a).queueHead.id) : SameHeads s t := by
  intro a
  have type := (ready.sound a).cons.own.head_type
  have type' := (ready'.sound a).cons.own.head_type
  change (s.object a).queueHead.type = .queue at type
  change (t.object a).queueHead.type = .queue at type'
  cases head : (s.object a).queueHead
  cases head' : (t.object a).queueHead
  have id := same a
  rw [head, head'] at id
  rw [head] at type
  rw [head'] at type'
  simp_all

theorem stocked_after {deeds : List Deed} (ready : Ready i s) (stocked : Stocked s stock)
    (after : After i deeds s t) (heads : SameHeads s t) :
    ∃ stock', Runs Stock.Does stock (deeds.map (deal i)) stock' ∧ Stocked t stock' := by
  induction deeds generalizing s stock with
  | nil => exact ⟨stock, .nil _, stocked_calm ready.sound stocked after heads⟩
  | cons deed deeds ih =>
    obtain ⟨u, u', calm, did, rest⟩ := after
    have ready₁ := ready.calm calm
    have level : ∀ a, (u.object a).queueHead.id = (s.object a).queueHead.id := by
      intro a
      have first := (calm.quiet a).head
      have last := after_heads rest a
      rw [did_head did a, heads a] at last
      exact le_antisymm last first
    have heads₁ := sameHeads_of ready ready₁ level
    obtain ⟨stock₁, does, stocked₁⟩ := stocked_did ready₁ (stocked_calm ready.sound stocked calm heads₁) did
    have heads₂ : SameHeads u' t := fun a => by rw [heads a, did_head did a, heads₁ a]
    obtain ⟨stock', run, stocked'⟩ := ih (ready₁.did did) stocked₁ rest heads₂
    exact ⟨stock', .cons does run, stocked'⟩

/-- Connection `i` does these deeds, and pushes no item. -/
structure Acts (i : ℕ) (deeds : List Deed) (s t : Server) : Prop where
  after : After i deeds s t
  heads : SameHeads s t

theorem Acts.refl (i : ℕ) (s : Server) : Acts i [] s s := ⟨Calm.refl i s, fun _ => rfl⟩

theorem acts_calm (calm : Calm i s t) (heads : SameHeads s t) : Acts i [] s t := ⟨calm, heads⟩

theorem acts_did {deed : Deed} (did : Did i deed s t) : Acts i [deed] s t :=
  ⟨did.after, did_head did⟩

theorem Acts.append {deeds deeds' : List Deed} (first : Acts i deeds s t)
    (second : Acts i deeds' t u) : Acts i (deeds ++ deeds') s u :=
  ⟨first.after.append second.after, first.heads.trans second.heads⟩

theorem Acts.calm {deeds : List Deed} (first : Acts i deeds s t) (calm : Acts i [] t u) :
    Acts i deeds s u :=
  ⟨first.after.calm calm.after, first.heads.trans calm.heads⟩

theorem ready_after {deeds : List Deed} (ready : Ready i s) (after : After i deeds s t) :
    Ready i t := by
  induction deeds generalizing s with
  | nil => exact ready.calm after
  | cons deed deeds ih =>
    obtain ⟨u, u', calm, did, rest⟩ := after
    exact ih ((ready.calm calm).did did) rest

theorem Acts.ready {deeds : List Deed} (acts : Acts i deeds s t) (ready : Ready i s) :
    Ready i t := ready_after ready acts.after

theorem Acts.there {deeds : List Deed} (acts : Acts i deeds s t) (ready : Ready i s) :
    i < t.conns.length :=
  (acts.ready ready).there

theorem acts_reply (there : i < s.conns.length) (text : Bytes) (next : Next) :
    Acts i [] s (s.reply i text next) :=
  acts_calm (calm_reply there text next) fun _ => rfl

theorem heads_setObject {q : Queue} (same : q.queueHead = (s.object address).queueHead) :
    SameHeads s (s.setObject address q) := by
  intro a
  rcases s.object_setObject_cases address q a with kept | ⟨rfl, set⟩
  · rw [kept]
  · rw [set, same]

theorem heads_dropPush (s : Server) (i : ℕ) (ok : Bool) : SameHeads s (s.dropPush i ok) := by
  unfold Server.dropPush
  split
  · exact fun _ => rfl
  · refine heads_setObject ?_
    rcases OQStream.destruct_queue (s.conn i).pushStream _ ok with same | erased
    · rw [same]
    · exact (Queue.sameItems_eraseChunks erased).head

theorem heads_dropPop (s : Server) (i : ℕ) : SameHeads s (s.dropPop i) := by
  unfold Server.dropPop
  split
  · exact fun _ => rfl
  case h_2 isOpen =>
    refine heads_setObject ?_
    rw [IQStream.destruct_open (by rw [isOpen]; rfl)]
    exact (Queue.sameItems_wakeUp _).head

theorem heads_drop (s : Server) (i : ℕ) (ok : Bool) : SameHeads s (s.drop i ok) := by
  have streams := (heads_dropPush s i ok).trans (heads_dropPop (s.dropPush i ok) i)
  exact fun a => streams a

theorem acts_drop (ready : Ready i s) (stocked : Stocked s stock) (ok : Bool) :
    ∃ deeds, deeds.map (deal i) = letsGo i stock ∧ Acts i deeds s (s.drop i ok) := by
  rw [letsGo, stocked.held]
  cases isOpen : (s.conn i).popStream.queue with
  | none => exact ⟨[], rfl, acts_calm (drop_closed ready isOpen) (heads_drop s i ok)⟩
  | some a => exact ⟨[.giveBack a _], rfl, drop_holding ready ⟨isOpen, rfl⟩, heads_drop s i ok⟩

theorem acts_popRead (ready : Ready i s) (io : Io) : Acts i [] s (s.popRead i io).2 :=
  acts_calm (calm_popRead ready.there ready.popMade io) fun _ => rfl

theorem stocked_acts {deeds : List Deed} (ready : Ready i s) (stocked : Stocked s stock)
    (acts : Acts i deeds s t) :
    ∃ stock', Runs Stock.Does stock (deeds.map (deal i)) stock' ∧ Stocked t stock' :=
  stocked_after ready stocked acts.after acts.heads

end Darner.BrokerStock
