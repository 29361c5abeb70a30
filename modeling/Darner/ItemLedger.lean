import Darner.Conversations

/-! The books of a broker. Every exchange in which an item was stored has an entry of its own,
every entry has such an exchange, or was left by an earlier life, and an entry that is gone was
sent whole to a client first. -/

namespace Darner.ItemLedger
open OrderedStore LabelledRuns HoldingQueues Broker BrokerStock BrokerRefinement Conversations

variable {base stock : Stock ℕ ℕ Bytes} {called called' : ℕ → Option Bytes}
  {past : List Broker.Label} {label : Broker.Label} {b b' : Broker} {talk : ℕ → List Exchange}
  {i j lane n : ℕ} {value heard said : Bytes} {deals : List Deal} {phase : Phase} {names : Names}
  {exchange : Option Exchange}

/-- What a client and the broker have said to each other is a sequence of exchanges and the
beginning of one. -/
structure Talks (called : ℕ → Option Bytes) (past : List Broker.Label) (b : Broker) (i : ℕ)
    (talk : List Exchange) : Prop where
  proper : ∀ exchange ∈ talk, exchange.Proper
  backed : ∀ exchange ∈ talk, exchange.Backed called b.stock
  unfinished : ∃ heard said,
    Begun (Knows called) (Has called i b.stock) (b.phases i) heard said ∧
    heardFrom i past = talk.flatMap Exchange.heard ++ heard ∧
    saidTo i past = talk.flatMap Exchange.said ++ said
  absent : b.joined ≤ i →
    b.phases i = .gone ∧ talk = [] ∧ heardFrom i past = [] ∧ saidTo i past = []

def SentWhole (talk : List Exchange) (lane n : ℕ) : Prop :=
  ∃ line name value, Exchange.item line name value lane n ∈ talk

def LastSent (talk : List Exchange) (lane n : ℕ) : Prop :=
  ∃ line name value, (talk.filter Exchange.isItem).getLast? = some (.item line name value lane n)

def Dropped (talk : ℕ → List Exchange) (name : Bytes) : Prop :=
  ∃ i, ∃ exchange ∈ talk i, exchange.Drops name

/-- The entries against the exchanges, from the start on, when there was `base`. -/
structure Books (base stock : Stock ℕ ℕ Bytes) (phases : ℕ → Phase) (talk : ℕ → List Exchange) :
    Prop where
  old : ∀ lane, (base.lanes lane).entries <+: (stock.lanes lane).entries
  complete : ∀ lane n, (base.lanes lane).entries.length ≤ n → n < (stock.lanes lane).entries.length →
    ∃ i line body, Exchange.stored line body lane n ∈ talk i
  fresh : ∀ i line body lane n, Exchange.stored line body lane n ∈ talk i →
    (base.lanes lane).entries.length ≤ n ∧ n < (stock.lanes lane).entries.length
  once : ∀ (i j k l : ℕ) (line line' body body' : Bytes) (lane n : ℕ),
    (talk i)[k]? = some (.stored line body lane n) →
    (talk j)[l]? = some (.stored line' body' lane n) → i = j ∧ k = l
  gone : ∀ lane n, stock.Gone lane n → base.Gone lane n ∨ ∃ i, SentWhole (talk i) lane n
  held : ∀ i lane n, stock.held i = some (lane, n) → Midway (phases i) ∨ LastSent (talk i) lane n

/-- A set of a body that is read as `value` was answered, in this life or an earlier one. -/
def SetBy (past : List Broker.Label) (value : Bytes) : Prop :=
  ∃ front back i piece line body req,
    past = front ++ .turn i piece (ascii "STORED\r\n") :: back ∧
    line ++ body ++ ascii "\r\n" <:+
      heardFrom i (front ++ [.turn i piece (ascii "STORED\r\n")]) ∧
    Request.parse line = some req ∧ req.type = .set ∧ body.length = req.numBytes ∧
    Restores body value

structure Ledger (base : Stock ℕ ℕ Bytes) (called : ℕ → Option Bytes) (past : List Broker.Label)
    (b : Broker) (talk : ℕ → List Exchange) : Prop where
  named : Called called b.names
  retained : ∀ lane name, called lane = some name →
    b.names.lane.lookup name = some lane ∨ Dropped talk name
  talks : ∀ i, Talks called past b i (talk i)
  books : Books base b.stock b.phases talk
  sources : ∀ lane, ∀ value ∈ (b.stock.lanes lane).entries, SetBy past value
  first : .restart ∉ past → base = .empty

theorem SetBy.concat (set : SetBy past value) : SetBy (past ++ [label]) value := by
  obtain ⟨front, back, i, piece, line, body, req, rfl, rest⟩ := set
  exact ⟨front, back ++ [label], i, piece, line, body, req, by simp, rest⟩

theorem ledger_start : Ledger .empty (fun _ => none) [] .start fun _ => [] where
  named := ⟨fun name lane found => by simp [start] at found, fun _ _ => rfl⟩
  retained lane name same := by cases same
  talks i :=
    { proper := by simp
      backed := by simp
      unfinished := ⟨[], [], .gone .nothing, rfl, rfl⟩
      absent := fun _ => ⟨rfl, rfl, rfl, rfl⟩ }
  books :=
    { old := fun _ => List.prefix_rfl
      complete := fun lane n old new => absurd new (Nat.not_lt.mpr old)
      fresh := by simp
      once := by simp
      gone := fun lane n gone => .inl gone
      held := by simp [start, Stock.empty] }
  sources lane value mem := by simp [start, Stock.empty, Lane.empty] at mem
  first _ := rfl

theorem heardFrom_silent (silent : heardIn i label = []) (other : label ≠ .restart) :
    heardFrom i (past ++ [label]) = heardFrom i past := by
  rw [heardFrom_concat other, silent, List.append_nil]

theorem saidTo_silent (silent : saidIn i label = []) (other : label ≠ .restart) :
    saidTo i (past ++ [label]) = saidTo i past := by
  rw [saidTo_concat other, silent, List.append_nil]

theorem Ledger.silent (ledger : Ledger base called past b talk) (other : label ≠ .restart)
    (deaf : ∀ i, heardIn i label = []) (mute : ∀ i, saidIn i label = []) :
    Ledger base called (past ++ [label]) b talk where
  named := ledger.named
  retained := ledger.retained
  talks i := by
    have talks := ledger.talks i
    refine ⟨talks.proper, talks.backed, ?_, ?_⟩
    · rw [heardFrom_silent (deaf i) other, saidTo_silent (mute i) other]
      exact talks.unfinished
    · rw [heardFrom_silent (deaf i) other, saidTo_silent (mute i) other]
      exact talks.absent
  books := ledger.books
  sources lane value mem := (ledger.sources lane value mem).concat
  first live := ledger.first fun mem => live (List.mem_append_left _ mem)

theorem Ledger.join (ledger : Ledger base called past b talk) :
    Ledger base called (past ++ [.join])
      { b with phases := Function.update b.phases b.joined .asking, joined := b.joined + 1 } talk where
  named := ledger.named
  retained := ledger.retained
  talks i := by
    have talks := ledger.talks i
    have heard : heardFrom i (past ++ [.join]) = heardFrom i past := heardFrom_silent rfl (by simp)
    have said : saidTo i (past ++ [.join]) = saidTo i past := saidTo_silent rfl (by simp)
    by_cases new : i = b.joined
    · subst new
      obtain ⟨-, none, nothing, silent⟩ := talks.absent (Nat.le_refl _)
      refine ⟨talks.proper, talks.backed, ⟨[], [], ?_, ?_, ?_⟩, fun absent => ?_⟩
      · dsimp only
        rw [Function.update_self]
        exact .asking
      · rw [heard, nothing, none]
        rfl
      · rw [said, silent, none]
        rfl
      · exact absurd absent (Nat.not_succ_le_self _)
    · refine ⟨talks.proper, talks.backed, ?_, fun absent => ?_⟩
      · dsimp only
        rw [heard, said, Function.update_of_ne new]
        exact talks.unfinished
      · dsimp only
        rw [heard, said, Function.update_of_ne new]
        exact talks.absent (Nat.le_of_succ_le absent)
  books :=
    { ledger.books with
      held := fun i lane n held => by
        by_cases new : i = b.joined
        · subst new
          obtain ⟨gone, none, -⟩ := (ledger.talks b.joined).absent (Nat.le_refl _)
          rcases ledger.books.held _ lane n held with midway | sent
          · rw [gone] at midway
            exact midway.elim
          · exact .inr sent
        · dsimp only
          rw [Function.update_of_ne new]
          exact ledger.books.held i lane n held }
  sources lane value mem := (ledger.sources lane value mem).concat
  first live := ledger.first fun mem => live (List.mem_append_left _ mem)

theorem Ledger.restart (ledger : Ledger base called past b talk) (left : Left b b') :
    ∃ called', Ledger b'.stock called' (past ++ [.restart]) b' fun _ => [] := by
  obtain ⟨called', named, held⟩ := exists_called left.names
  refine ⟨called', named, fun lane name same => .inl (held lane name same), fun i => ?_, ?_, fun lane value mem => ?_, fun live => ?_⟩
  · refine ⟨by simp, by simp, ⟨[], [], ?_, by simp, by simp⟩, fun _ => ⟨?_, rfl, by simp, by simp⟩⟩
    · rw [left.phases]
      exact .gone .nothing
    · rw [left.phases]
  · refine ⟨fun _ => List.prefix_rfl, fun lane n old new => absurd new (Nat.not_lt.mpr old), by simp,
      by simp, fun lane n gone => .inl gone, fun i lane n held => ?_⟩
    rw [left.held] at held
    cases held
  · obtain ⟨former, k, same⟩ := left.lanes lane
    rw [same] at mem
    exact (ledger.sources former value (List.mem_of_mem_take mem)).concat
  · exact absurd (by simp) live

theorem getElem_prefix {xs ys : List Bytes} (part : xs <+: ys) (entry : xs[n]? = some value) :
    ys[n]? = some value := by
  obtain ⟨small, -⟩ := List.getElem?_eq_some_iff.mp entry
  obtain ⟨more, rfl⟩ := part
  exact (List.getElem?_append_left small).trans entry

theorem backed_mono {exchange : Exchange} (backed : exchange.Backed called b.stock)
    (extends_ : Extends called called')
    (entries : ∀ lane, (b.stock.lanes lane).entries <+: (stock.lanes lane).entries) :
    exchange.Backed called' stock := by
  cases exchange with
  | answer line reply => trivial
  | stored line body lane n =>
    obtain ⟨req, value, asked, here, entry, restores⟩ := backed
    exact ⟨req, value, asked, extends_ _ _ here, getElem_prefix (entries lane) entry, restores⟩
  | item line name value lane n =>
    obtain ⟨here, entry⟩ := backed
    exact ⟨extends_ _ _ here, getElem_prefix (entries lane) entry⟩

theorem Talks.other {talk : List Exchange} (talks : Talks called past b j talk) (ne : j ≠ i)
    (extends_ : Extends called called') (held : stock.held j = b.stock.held j)
    (entries : ∀ lane, (b.stock.lanes lane).entries <+: (stock.lanes lane).entries) :
    Talks called' (past ++ [.turn i heard said])
      { b with names := names, stock := stock, phases := Function.update b.phases i phase } j talk := by
  have heardSame : heardFrom j (past ++ [.turn i heard said]) = heardFrom j past :=
    heardFrom_silent (if_neg ne.symm) (by simp)
  have saidSame : saidTo j (past ++ [.turn i heard said]) = saidTo j past :=
    saidTo_silent (if_neg ne.symm) (by simp)
  have same : Function.update b.phases i phase j = b.phases j := Function.update_of_ne ne ..
  refine ⟨talks.proper, fun exchange mem => backed_mono (talks.backed exchange mem) extends_ entries, ?_, ?_⟩
  · obtain ⟨heard₀, said₀, unfinished, rest⟩ := talks.unfinished
    rw [heardSame, saidSame]
    dsimp only
    rw [same]
    refine ⟨heard₀, said₀, unfinished.mono (fun req lane here => extends_ _ _ here) ?_, rest⟩
    rintro req left - value ⟨lane, n, mine, here, entry⟩
    exact ⟨lane, n, held.trans mine, extends_ _ _ here, getElem_prefix (entries lane) entry⟩
  · rw [heardSame, saidSame]
    dsimp only
    rw [same]
    exact talks.absent

theorem Talks.mine {talk : List Exchange} {heard₀ said₀ : Bytes} (talks : Talks called past b i talk)
    (here : i < b.joined) (extends_ : Extends called called')
    (entries : ∀ lane, (b.stock.lanes lane).entries <+: (stock.lanes lane).entries)
    (heard_ : heardFrom i past = talk.flatMap Exchange.heard ++ heard₀)
    (said_ : saidTo i past = talk.flatMap Exchange.said ++ said₀)
    (spoken : Spoken called' i stock phase (heard₀ ++ heard) (said₀ ++ said) exchange) :
    Talks called' (past ++ [.turn i heard said])
      { b with names := names, stock := stock, phases := Function.update b.phases i phase } i
      (talk ++ exchange.toList) := by
  have heardNow : heardFrom i (past ++ [.turn i heard said]) =
      talk.flatMap Exchange.heard ++ (heard₀ ++ heard) := by
    rw [heardFrom_concat (by simp), heard_, List.append_assoc]
    simp [heardIn]
  have saidNow : saidTo i (past ++ [.turn i heard said]) =
      talk.flatMap Exchange.said ++ (said₀ ++ said) := by
    rw [saidTo_concat (by simp), said_, List.append_assoc]
    simp [saidIn]
  have old : ∀ exchange ∈ talk, exchange.Backed called' stock :=
    fun exchange mem => backed_mono (talks.backed exchange mem) extends_ entries
  have present : ¬b.joined ≤ i := Nat.not_le.mpr here
  have now : Function.update b.phases i phase i = phase := Function.update_self ..
  generalize heard₀ ++ heard = heard₁ at spoken heardNow
  generalize said₀ ++ said = said₁ at spoken saidNow
  cases spoken with
  | more unfinished =>
    rw [Option.toList_none, List.append_nil]
    refine ⟨talks.proper, old, ⟨_, _, ?_, heardNow, saidNow⟩, fun absent => absurd absent present⟩
    dsimp only
    rwa [now]
  | @all exchange proper backed =>
    rw [Option.toList_some]
    refine ⟨?_, ?_, ⟨[], [], ?_, ?_, ?_⟩, fun absent => absurd absent present⟩
    · exact List.forall_mem_append.mpr ⟨talks.proper, by simpa using proper⟩
    · exact List.forall_mem_append.mpr ⟨old, by simpa using backed⟩
    · dsimp only
      rw [now]
      exact .asking
    · simp [heardNow]
    · simp [saidNow]

def extended (talk : ℕ → List Exchange) (i : ℕ) (exchange : Option Exchange) : ℕ → List Exchange :=
  Function.update talk i (talk i ++ exchange.toList)

theorem extended_self : extended talk i exchange i = talk i ++ exchange.toList :=
  Function.update_self ..

theorem extended_other (ne : j ≠ i) : extended talk i exchange j = talk j :=
  Function.update_of_ne ne ..

theorem mem_extended {e : Exchange} :
    e ∈ extended talk i exchange j ↔ e ∈ talk j ∨ j = i ∧ exchange = some e := by
  by_cases same : j = i
  · subst same
    simp [extended_self]
  · rw [extended_other same]
    simp [same]

theorem getElem_extended {e : Exchange} {k : ℕ} (found : (extended talk i exchange j)[k]? = some e) :
    (talk j)[k]? = some e ∨ j = i ∧ k = (talk i).length ∧ exchange = some e := by
  by_cases same : j = i
  · subst same
    rw [extended_self] at found
    by_cases old : k < (talk j).length
    · rw [List.getElem?_append_left old] at found
      exact .inl found
    · rw [List.getElem?_append_right (Nat.le_of_not_lt old)] at found
      have mem := List.mem_of_getElem? found
      obtain ⟨small, -⟩ := List.getElem?_eq_some_iff.mp found
      rw [Option.mem_toList] at mem
      rw [mem, Option.toList_some, List.length_singleton] at small
      exact .inr ⟨rfl, by omega, mem⟩
  · rw [extended_other same] at found
    exact .inl found

theorem SentWhole.extended (sent : SentWhole (talk j) lane n) :
    SentWhole (extended talk i exchange j) lane n := by
  obtain ⟨line, name, value, mem⟩ := sent
  exact ⟨line, name, value, mem_extended.mpr (.inl mem)⟩

theorem mem_of_last {e : Exchange} {talk : List Exchange}
    (last : (talk.filter Exchange.isItem).getLast? = some e) : e ∈ talk :=
  (List.mem_filter.mp (List.mem_of_getLast? last)).1

theorem LastSent.whole {talk : List Exchange} (last : LastSent talk lane n) :
    SentWhole talk lane n := by
  obtain ⟨line, name, value, last⟩ := last
  exact ⟨line, name, value, mem_of_last last⟩

/-- What was last sent still is, unless the new exchange sends another item. -/
theorem LastSent.extended (last : LastSent (talk j) lane n)
    (plain : j = i → ∀ e ∈ exchange, e.isItem = false) :
    LastSent (extended talk i exchange j) lane n := by
  by_cases same : j = i
  · subst same
    have none : exchange.toList.filter Exchange.isItem = [] :=
      List.filter_eq_nil_iff.mpr fun e mem => by simp [plain rfl e (Option.mem_toList.mp mem)]
    rwa [LastSent, extended_self, List.filter_append, none, List.append_nil]
  · rwa [extended_other same]

theorem lastSent_new (new : IsItem exchange lane n) :
    LastSent (extended talk i exchange i) lane n := by
  obtain ⟨line, name, value, rfl⟩ := new
  refine ⟨line, name, value, ?_⟩
  rw [extended_self, Option.toList_some, List.filter_append]
  exact List.getLast?_concat

theorem retained_turn (retained : ∀ lane name, called lane = some name →
      b.names.lane.lookup name = some lane ∨ Dropped talk name)
    (renames : Renames (Dropping exchange) called b.names called' names) :
    ∀ lane name, called' lane = some name →
      names.lane.lookup name = some lane ∨ Dropped (extended talk i exchange) name := by
  intro lane name same
  rcases renames.fresh lane name same with old | new
  · rcases retained lane name old with found | ⟨j, e, mem, drops⟩
    · refine (renames.retained name lane found).imp_right ?_
      rintro ⟨e, new, drops⟩
      exact ⟨i, e, mem_extended.mpr (.inr ⟨rfl, new⟩), drops⟩
    · exact .inr ⟨j, e, mem_extended.mpr (.inl mem), drops⟩
  · exact .inl new

theorem Books.forgotten {known : Option (ℕ × ℕ)} {phases : ℕ → Phase}
    (books : Books base b.stock phases talk)
    (held : ∀ p, known = some p → ¬Midway (phases i) ∧ b.stock.held i = some p)
    (moves : Handles i known deals phase exchange stock) (mem : .forget i lane n ∈ deals) :
    SentWhole (extended talk i exchange i) lane n := by
  rcases moves.forgets lane n mem with same | new
  · obtain ⟨calm, holding⟩ := held _ same
    exact ((books.held i lane n holding).resolve_left calm).whole.extended
  · exact (lastSent_new new).whole

theorem Books.moves {known : Option (ℕ × ℕ)} {phases : ℕ → Phase} (books : Books base b.stock phases talk)
    (held : ∀ p, known = some p → ¬Midway (phases i) ∧ b.stock.held i = some p)
    (moves : Handles i known deals phase exchange stock)
    (does : Runs Stock.Does b.stock deals stock) :
    Books base stock (Function.update phases i phase) (extended talk i exchange) := by
  have entries := Stock.runs_entries_same does moves.pushes
  have mine := fun j (ne : j ≠ i) => Stock.runs_held_other does moves.mine ne
  have plain : ∀ {j line body lane n},
      Exchange.stored line body lane n ∈ extended talk i exchange j →
        Exchange.stored line body lane n ∈ talk j := fun mem =>
    (mem_extended.mp mem).resolve_right fun new => moves.plain _ _ _ _ new.2
  refine ⟨fun lane => entries lane ▸ books.old lane, fun lane n old new => ?_,
    fun j line body lane n mem => ?_, ?_, fun lane n gone => ?_, fun j lane n holding => ?_⟩
  · rw [entries] at new
    obtain ⟨j, line, body, mem⟩ := books.complete lane n old new
    exact ⟨j, line, body, mem_extended.mpr (.inl mem)⟩
  · rw [entries]
    exact books.fresh j line body lane n (plain mem)
  · intro j j' k l line line' body body' lane n first second
    have old : ∀ {j k : ℕ} {line body : Bytes},
        (extended talk i exchange j)[k]? = some (.stored line body lane n) →
          (talk j)[k]? = some (.stored line body lane n) := fun found =>
      (getElem_extended found).resolve_right fun new => moves.plain _ _ _ _ new.2.2
    exact books.once j j' k l line line' body body' lane n (old first) (old second)
  · rcases (Stock.runs_gone does).mp gone with before | ⟨c, forgotten⟩
    · exact (books.gone lane n before).imp_right fun ⟨j, sent⟩ => ⟨j, sent.extended⟩
    · obtain rfl : c = i := moves.mine _ forgotten
      exact .inr ⟨c, books.forgotten held moves forgotten⟩
  · by_cases same : j = i
    · subst same
      rw [Function.update_self]
      rcases moves.held lane n holding with ⟨same, plain⟩ | midway | new
      · obtain ⟨calm, holding⟩ := held _ same
        exact .inr (((books.held j lane n holding).resolve_left calm).extended fun _ => plain)
      · exact .inl midway
      · exact .inr (lastSent_new new)
    · rw [Function.update_of_ne same, extended_other same]
      rw [mine j same] at holding
      exact books.held j lane n holding

theorem Books.push {phases : ℕ → Phase} {line body : Bytes} (books : Books base b.stock phases talk)
    (calm : ¬Midway (phases i)) (new : exchange =
      some (.stored line body lane (b.stock.lanes lane).entries.length)) :
    Books base (b.stock.push lane value) (Function.update phases i phase)
      (extended talk i exchange) := by
  have place : ∀ {line' body' : Bytes} {lane' n : ℕ},
      exchange = some (.stored line' body' lane' n) →
        lane' = lane ∧ n = (b.stock.lanes lane').entries.length := by
    intro line' body' lane' n same
    obtain ⟨-, -, rfl, rfl⟩ := by simpa [new] using same
    exact ⟨rfl, rfl⟩
  have used : ∀ {j k : ℕ} {line' body' : Bytes} {lane' n : ℕ},
      (talk j)[k]? = some (.stored line' body' lane' n) →
        n ≠ (b.stock.lanes lane').entries.length := fun found =>
    Nat.ne_of_lt (books.fresh _ _ _ _ _ (List.mem_of_getElem? found)).2
  refine ⟨fun lane' => ?_, fun lane' n old small => ?_, fun j line' body' lane' n mem => ?_, ?_,
    fun lane' n gone => ?_, fun j lane' n holding => ?_⟩
  · rw [Stock.entries_push]
    exact (books.old lane').trans (List.prefix_append ..)
  · rw [Stock.entries_push, List.length_append] at small
    by_cases there : n < (b.stock.lanes lane').entries.length
    · obtain ⟨j, line', body', mem⟩ := books.complete lane' n old there
      exact ⟨j, line', body', mem_extended.mpr (.inl mem)⟩
    · split at small
      case isTrue same =>
        subst same
        have last : n = (b.stock.lanes lane').entries.length := by
          simp only [List.length_singleton] at small
          omega
        subst last
        exact ⟨i, line, body, mem_extended.mpr (.inr ⟨rfl, new⟩)⟩
      case isFalse => exact absurd small there
  · rw [Stock.entries_push, List.length_append]
    rcases mem_extended.mp mem with old | ⟨rfl, same⟩
    · have fresh := books.fresh j line' body' lane' n old
      exact ⟨fresh.1, Nat.lt_add_right _ fresh.2⟩
    · obtain ⟨rfl, rfl⟩ := place same
      exact ⟨(books.old _).length_le, by simp⟩
  · intro j j' k l line₁ line₂ body₁ body₂ lane' n first second
    rcases getElem_extended first with old | ⟨rfl, rfl, same⟩
    · rcases getElem_extended second with old' | ⟨rfl, rfl, same'⟩
      · exact books.once j j' k l line₁ line₂ body₁ body₂ lane' n old old'
      · exact absurd (place same').2 (used old)
    · rcases getElem_extended second with old' | ⟨rfl, rfl, same'⟩
      · exact absurd (place same).2 (used old')
      · exact ⟨rfl, rfl⟩
  · have push : Stock.Does b.stock (.push lane value) (b.stock.push lane value) := .push lane value
    rcases push.gone.mp gone with before | forgotten
    · exact (books.gone lane' n before).imp_right fun ⟨j, sent⟩ => ⟨j, sent.extended⟩
    · cases forgotten
  · rw [Stock.held_push] at holding
    rcases books.held j lane' n holding with midway | sent
    · by_cases same : j = i
      · exact absurd (same ▸ midway) calm
      · rw [Function.update_of_ne same]
        exact .inl midway
    · exact .inr (sent.extended fun _ => by simp [new, Exchange.isItem])

theorem turn_here (turn : Turn i b heard deals said phase names) : b.phases i ≠ .gone := by
  cases turn with
  | hears asking => simp [asking]
  | receives storing => simp [storing]
  | woken waiting => simp [waiting]
  | timedOut waiting => simp [waiting]
  | continues sending => simp [sending]
  | leaves here => exact here

theorem setBy_stored {heard₀ said₀ : Bytes} {called : ℕ → Option Bytes}
    (heard_ : heardFrom i past = (talk i).flatMap Exchange.heard ++ heard₀)
    (puts : Puts called i b deals phase (heard₀ ++ heard) (said₀ ++ ascii "STORED\r\n") stock lane
      value exchange) :
    SetBy (past ++ [.turn i heard (ascii "STORED\r\n")]) value := by
  obtain ⟨line, body, restores, rfl⟩ := puts.stored
  have spoken := puts.talk
  generalize whole : heard₀ ++ heard = heard₁ at spoken
  generalize said₀ ++ ascii "STORED\r\n" = said₁ at spoken
  cases spoken with
  | all proper backed =>
  cases proper with
  | @stored _ _ req _ _ asked type size =>
  refine ⟨past, [], i, heard, line, body, req, rfl, ?_, asked, type, size, restores⟩
  rw [heardFrom_concat (by simp), heard_, List.append_assoc]
  refine ⟨(talk i).flatMap Exchange.heard, ?_⟩
  simp [heardIn, whole, Exchange.heard]

/-- What a client forgets it held between two requests, or it was just sent the whole of it. -/
def Earned (b : Broker) (deals : List Deal) (talk : ℕ → List Exchange) (c lane n : ℕ) : Prop :=
  .forget c lane n ∈ deals →
    (¬Midway (b.phases c) ∧ b.stock.held c = some (lane, n)) ∨ LastSent (talk c) lane n

theorem ledger_turn (ledger : Ledger base called past b talk)
    (turn : Turn i b heard deals said phase names) (does : Runs Stock.Does b.stock deals stock) :
    ∃ called' exchange, Ledger base called' (past ++ [.turn i heard said])
      { b with names := names, stock := stock, phases := Function.update b.phases i phase }
      (extended talk i exchange) ∧
      (∀ deal ∈ deals, deal.By i) ∧ ∀ lane n, Earned b deals (extended talk i exchange) i lane n := by
  have talks := ledger.talks i
  obtain ⟨heard₀, said₀, unfinished, heard_, said_⟩ := talks.unfinished
  have here : i < b.joined := by
    refine Nat.lt_of_not_le fun beyond => turn_here turn (talks.absent beyond).1
  obtain ⟨called', exchange, renames, outcome⟩ := turn_talked ledger.named unfinished turn does
  have named := renames.named
  have extends_ := renames.extends_
  have retained := retained_turn (i := i) ledger.retained renames
  have entries := Stock.runs_entries does
  have both : (∀ j ≠ i, stock.held j = b.stock.held j) →
      Spoken called' i stock phase (heard₀ ++ heard) (said₀ ++ said) exchange →
      ∀ j, Talks called' (past ++ [.turn i heard said])
        { b with names := names, stock := stock, phases := Function.update b.phases i phase } j
        (extended talk i exchange j) := by
    intro others spoken j
    by_cases same : j = i
    · subst same
      rw [extended_self]
      exact talks.mine here extends_ entries heard_ said_ spoken
    · rw [extended_other same]
      exact (ledger.talks j).other same extends_ (others j same) entries
  have first : .restart ∉ past ++ [.turn i heard said] → base = .empty :=
    fun live => ledger.first fun mem => live (List.mem_append_left _ mem)
  rcases outcome with ⟨known, held, talked⟩ | ⟨rfl, calm, lane, value, puts⟩
  · refine ⟨called', exchange, ⟨named, retained, both ?_ talked.talk, ?_, ?_, first⟩, ?_⟩
    · exact fun j ne => Stock.runs_held_other does talked.moves.mine ne
    · exact ledger.books.moves held talked.moves does
    · intro lane value mem
      rw [Stock.runs_entries_same does talked.moves.pushes lane] at mem
      exact (ledger.sources lane value mem).concat
    · refine ⟨talked.moves.mine, fun lane n forgotten => ?_⟩
      exact (talked.moves.forgets lane n forgotten).imp (held _) lastSent_new
  · have source := setBy_stored heard_ puts
    obtain ⟨rfl, rfl, ⟨line, body, restores, rfl⟩, spoken⟩ := puts
    refine ⟨called', some _, ⟨named, retained, both (fun j ne => rfl) spoken, ?_, ?_, first⟩,
      by simp [HoldingQueues.Op.By], fun lane n forgotten => by simp at forgotten⟩
    · exact ledger.books.push calm rfl
    · intro lane' value' mem
      rw [Stock.entries_push, List.mem_append] at mem
      rcases mem with old | new
      · exact (ledger.sources lane' value' old).concat
      · split at new
        · rw [List.mem_singleton.mp new]
          exact source
        · cases new

theorem ledger_step {label : Broker.Label} (ledger : Ledger base called past b talk)
    (step : Broker.Step b (label, deals) b') :
    ∃ base' called' talk', Ledger base' called' (past ++ [label]) b' talk' ∧
      ∀ c lane n, .forget c lane n ∈ deals →
        (∃ heard said, label = .turn c heard said) ∧ Earned b deals talk' c lane n := by
  cases step with
  | turn turn does =>
    obtain ⟨called', exchange, ledger', mine, earned⟩ := ledger_turn ledger turn does
    refine ⟨base, called', _, ledger', fun c lane n forgotten => ?_⟩
    obtain rfl : c = _ := mine _ forgotten
    exact ⟨⟨_, _, rfl⟩, earned lane n⟩
  | quiet i =>
    refine ⟨base, called, talk, ledger.silent (by simp) ?_ ?_, by simp⟩
    · simp [heardIn]
    · simp [saidIn]
  | tick =>
    exact ⟨base, called, talk, ledger.silent (by simp) (fun _ => rfl) fun _ => rfl, by simp⟩
  | join => exact ⟨base, called, talk, ledger.join, by simp⟩
  | restart left =>
    obtain ⟨called', ledger'⟩ := ledger.restart left
    exact ⟨_, called', _, ledger', by simp⟩

variable {s : Server} {labels : List Broker.Label} {chunkSize : ℕ} {dataPath : Bytes}
  {steps : List (Broker.Label × List Deal)}

theorem ledger_runs (run : Runs Broker.Step .start steps b) :
    ∃ base called talk, Ledger base called (steps.map Prod.fst) b talk := by
  let Ledgered (past : List Broker.Label) (b : Broker) : Prop :=
    ∃ base called talk, Ledger base called past b talk
  have start : Ledgered [] .start := ⟨_, _, _, ledger_start⟩
  have keep : ∀ past (b : Broker) (step : Broker.Label × List Deal) b', True → Ledgered past b →
      Broker.Step b step b' → Ledgered (past ++ [step.1]) b' := by
    intro past b step b' _ ⟨base, called, talk, ledger⟩ first
    obtain ⟨base', called', talk', ledger', -⟩ := ledger_step ledger first
    exact ⟨base', called', talk', ledger'⟩
  have last := run.preserves_history keep [] (fun _ _ => trivial) start
  rwa [List.nil_append, ← List.map_eq_flatMap] at last

theorem server_ledger (pos : 0 < chunkSize)
    (run : Runs Shows (.empty chunkSize dataPath) labels s) :
    ∃ base called talk b, Describes s b ∧ Ledger base called labels b talk := by
  obtain ⟨steps, b, rfl, broker, describes⟩ :=
    runs_described (firm_empty pos) (describes_empty pos) run
  obtain ⟨base, called, talk, ledger⟩ := ledger_runs broker
  exact ⟨base, called, talk, b, describes, ledger⟩

theorem Ledger.last_item {name : Bytes} (ledger : Ledger base called past b talk)
    (found : b.names.lane.lookup name = some lane)
    (entry : (b.stock.lanes lane).entries[n]? = some value) (last : LastSent (talk i) lane n) :
    ∃ line, ((talk i).filter Exchange.isItem).getLast? = some (.item line name value lane n) := by
  obtain ⟨line, name', value', last⟩ := last
  obtain ⟨here, entry'⟩ := (ledger.talks i).backed _ (mem_of_last last)
  obtain rfl : name = name' :=
    Option.some.inj ((ledger.named.named name lane found).symm.trans here)
  obtain rfl := Option.some.inj (entry.symm.trans entry')
  exact ⟨line, last⟩

def Passed (labels : List Broker.Label) (i : ℕ) (talk : List Exchange) : Prop :=
  (∀ exchange ∈ talk, exchange.Proper) ∧
  ∃ heard said, Cut heard said ∧ heardFrom i labels = talk.flatMap Exchange.heard ++ heard ∧
    saidTo i labels = talk.flatMap Exchange.said ++ said

theorem Talks.passed {talk : List Exchange} (talks : Talks called labels b i talk) :
    Passed labels i talk := by
  obtain ⟨heard, said, unfinished, rest⟩ := talks.unfinished
  exact ⟨talks.proper, heard, said, unfinished.cut, rest⟩

theorem step_does (step : Broker.Step b (label, deals) b') (live : label ≠ .restart) :
    Runs Stock.Does b.stock deals b'.stock := by
  cases step with
  | turn turn does => exact does
  | quiet | tick | join => exact .nil _
  | restart => exact absurd rfl live

theorem runs_deals (run : Runs Broker.Step b steps b')
    (live : ∀ step ∈ steps, step.1 ≠ .restart) :
    Runs Stock.Does b.stock (steps.flatMap Prod.snd) b'.stock := by
  induction run with
  | nil => exact .nil _
  | cons first _ ih =>
    have rest := ih fun step mem => live step (List.mem_cons_of_mem _ mem)
    rw [List.flatMap_cons]
    exact (step_does first (live _ List.mem_cons_self)).append rest

/-- Every taking of an item but the last one ends in its being given back, and the last one
in that, in its removal, which happens once, or not yet. Where nothing is given back to a
lane, its items are taken in the order in which they were stored. What was held or gone at
first, in `base`, counts as taken or removed. -/
structure HandedOut (base : Stock ℕ ℕ Bytes) (deals : List Deal) (stock : Stock ℕ ℕ Bytes) :
    Prop where
  balance : ∀ lane n, deals.countP (Op.takes lane n) + base.holders lane n =
    deals.countP (Op.givesBack lane n) + deals.countP (Op.forgets lane n) + stock.holders lane n
  once : ∀ lane n, deals.countP (Op.forgets lane n) + base.losses lane n = stock.losses lane n
  order : ∀ lane, (∀ deal ∈ deals, deal.returnsTo lane = false) →
    (deals.filterMap (Op.taken lane)).Pairwise (· < ·)

theorem handedOut_runs {deals : List Deal} (run : Runs Stock.Does base deals stock) :
    HandedOut base deals stock where
  balance := Stock.runs_balance run
  once := Stock.runs_loss run
  order _ kept := Stock.runs_taken run kept

theorem HandedOut.first {deals : List Deal} (out : HandedOut .empty deals stock) (lane n : ℕ) :
    deals.countP (Op.takes lane n) =
      deals.countP (Op.givesBack lane n) + deals.countP (Op.forgets lane n) +
        stock.holders lane n ∧
    deals.countP (Op.forgets lane n) = stock.losses lane n := by
  have unheld : Stock.holders (.empty : Stock ℕ ℕ Bytes) lane n = 0 :=
    if_neg (by simp [Stock.IsHeld, Stock.empty])
  have unlost : Stock.losses (.empty : Stock ℕ ℕ Bytes) lane n = 0 :=
    if_neg (by simp [Stock.Gone, Stock.empty, Lane.empty])
  have balance := out.balance lane n
  have once := out.once lane n
  rw [unheld, Nat.add_zero] at balance
  rw [unlost, Nat.add_zero] at once
  exact ⟨balance, once⟩

/-- In every life of a server, and in every part of one: between two starts, the operations of
the broker hand out its items. -/
theorem items_handed_out (pos : 0 < chunkSize)
    (run : Runs Shows (.empty chunkSize dataPath) labels s) :
    ∃ (steps : List (Broker.Label × List Deal)) (b : Broker), steps.map Prod.fst = labels ∧
      Runs Broker.Step .start steps b ∧ Describes s b ∧
      ∀ front life back, steps = front ++ life ++ back → (∀ step ∈ life, step.1 ≠ .restart) →
        ∃ b₁ b₂, Runs Broker.Step .start front b₁ ∧ Runs Broker.Step b₁ life b₂ ∧
          Runs Broker.Step b₂ back b ∧ HandedOut b₁.stock (life.flatMap Prod.snd) b₂.stock := by
  obtain ⟨steps, b, labelled, broker, describes⟩ :=
    runs_described (firm_empty pos) (describes_empty pos) run
  refine ⟨steps, b, labelled, broker, describes, ?_⟩
  rintro front life back rfl live
  obtain ⟨b₂, before, after⟩ := broker.split
  obtain ⟨b₁, before, during⟩ := before.split
  exact ⟨b₁, b₂, before, during, after, handedOut_runs (runs_deals during live)⟩

theorem items_handed_out_handover :
    ∃ s steps b, Runs Shows (.empty 16 [47]) handoverLabels s ∧
      steps.map Prod.fst = handoverLabels ∧ Runs Broker.Step .start steps b ∧ Describes s b ∧
      ∀ lane n, (steps.flatMap Prod.snd).countP (Op.takes lane n) =
        (steps.flatMap Prod.snd).countP (Op.givesBack lane n) +
          (steps.flatMap Prod.snd).countP (Op.forgets lane n) + b.stock.holders lane n ∧
        (steps.flatMap Prod.snd).countP (Op.forgets lane n) = b.stock.losses lane n := by
  obtain ⟨s, run⟩ := runs_handover
  obtain ⟨steps, b, labelled, broker, describes, parts⟩ := items_handed_out (by decide) run
  have live : ∀ step ∈ steps, step.1 ≠ .restart := by
    intro step mem same
    have shown : .restart ∈ handoverLabels := labelled ▸ List.mem_map.mpr ⟨step, mem, same⟩
    exact absurd shown (by decide)
  obtain ⟨b₁, b₂, first, -, last, out⟩ := parts [] steps [] (by simp) live
  cases first
  cases last
  exact ⟨s, steps, b, run, labelled, broker, describes, out.first⟩

end Darner.ItemLedger
