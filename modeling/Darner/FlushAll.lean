import Mathlib.Data.List.Sort
import Darner.Server

/-! The loop of `flush_all` over the entries of `queue_map`. An entry has an identity,
which its iterator and the references to its key carry; `std::map::erase` ends it, and
what reads the key or advances the iterator afterwards is a fault. -/

namespace Darner

structure EntryMap where
  server : Server
  entries : List (ℕ × Bytes)
  nextEntry : ℕ
  destroyed : List ℕ := []

/-- What a `const std::string&` to a queue name refers to. -/
inductive NameRef where
  | request (name : Bytes)
  | key (entry : ℕ)

namespace EntryMap

def ofServer (s : Server) : EntryMap where
  server := s
  entries := s.queueNames.zipIdx.map Prod.swap
  nextEntry := s.queues.keys.card

def keyOf (m : EntryMap) (entry : ℕ) : Except Fault Bytes :=
  match m.entries.find? fun e => e.1 = entry with
  | some e => .ok e.2
  | none => .error .danglingEntry

def read (m : EntryMap) : NameRef → Except Fault Bytes
  | .request name => .ok name
  | .key entry => m.keyOf entry

def begin (m : EntryMap) : Option ℕ := m.entries.head?.map Prod.fst

def advance (m : EntryMap) (entry : ℕ) : Except Fault (Option ℕ) :=
  match m.entries.dropWhile fun e => e.1 ≠ entry with
  | [] => .error .danglingEntry
  | _ :: rest => .ok (rest.head?.map Prod.fst)

def destroyQueue (m : EntryMap) (name : Bytes) (address : ℕ) : EntryMap :=
  { m with server := m.server.withoutQueue name address
           entries := m.entries.filter fun e => e.2 ≠ name
           destroyed := m.destroyed ++ [address] }

def createQueue (m : EntryMap) (name : Bytes) : Except Fault EntryMap := do
  let (_, server) ← m.server.newQueue name
  pure { m with server := server
                entries := m.entries.orderedInsert (fun e e' => e.2 ≤ e'.2) (m.nextEntry, name)
                nextEntry := m.nextEntry + 1 }

/-- `queue_map::erase`, which reads its argument to find the entry and once more, after
the entry is gone, to make the new queue. -/
def erase (m : EntryMap) (queueName : NameRef) (recreate : Bool) : Except Fault EntryMap := do
  let name ← m.read queueName
  match m.server.queues.lookup name with
  | none => pure m
  | some address =>
    let m := m.destroyQueue name address
    if recreate then
      let name ← m.read queueName
      m.createQueue name
    else pure m

/-- The loop of `flush_all`, for a number of turns; `none` when they are not enough. -/
def flushLoop : ℕ → EntryMap → Option ℕ → Option (Except Fault EntryMap)
  | 0, _, _ => none
  | _ + 1, m, none => some (.ok m)
  | turns + 1, m, some it =>
    match m.erase (.key it) true with
    | .error fault => some (.error fault)
    | .ok m =>
      match m.advance it with
      | .error fault => some (.error fault)
      | .ok next => flushLoop turns m next

/-- What `flush_all` is for: every queue is destroyed once and its name has a new one. -/
structure FlushedAll (m m' : EntryMap) : Prop where
  once : m'.destroyed.Nodup
  destroyed : ∀ address, address ∈ m'.destroyed ↔
    ∃ name, m.server.queues.lookup name = some address
  names : m'.server.queues.keys = m.server.queues.keys
  created : ∀ name address, m'.server.queues.lookup name = some address →
    m.server.objects.length ≤ address ∧
      m'.server.object address = .blank ∅ (m.server.pathOf name)

def Flushes (m : EntryMap) : Prop :=
  ∃ turns m', flushLoop turns m m.begin = some (.ok m') ∧ FlushedAll m m'

theorem keyOf_erased {m : EntryMap} {entry : ℕ} (gone : ∀ name, (entry, name) ∉ m.entries) :
    m.keyOf entry = .error .danglingEntry := by
  unfold keyOf
  split
  case h_1 e found =>
    have here := List.find?_some found
    rw [decide_eq_true_eq] at here
    subst here
    exact absurd (List.mem_of_find?_eq_some found) (gone e.2)
  case h_2 => rfl

theorem erase_read {m : EntryMap} {queueName : NameRef} {name : Bytes}
    (found : m.read queueName = .ok name) (recreate : Bool) :
    m.erase queueName recreate =
      match m.server.queues.lookup name with
      | none => .ok m
      | some address =>
        if recreate then
          (m.destroyQueue name address).read queueName >>= (m.destroyQueue name address).createQueue
        else .ok (m.destroyQueue name address) := by
  unfold erase
  rw [found]
  rfl

theorem createQueue_server (m : EntryMap) (name : Bytes) :
    (m.createQueue name).map EntryMap.server = (m.server.newQueue name).map Prod.snd := by
  unfold createQueue
  cases m.server.newQueue name <;> rfl

theorem erase_request (m : EntryMap) (name : Bytes) (recreate : Bool) :
    (m.erase (.request name) recreate).map EntryMap.server = m.server.eraseQueue name recreate := by
  have own : ∀ m : EntryMap, m.read (.request name) = .ok name := fun _ => rfl
  rw [erase_read (own m), Server.eraseQueue]
  cases m.server.queues.lookup name with
  | none => rfl
  | some address =>
    cases recreate with
    | false => rfl
    | true => exact createQueue_server (m.destroyQueue name address) name

theorem erase_key {m : EntryMap} {entry address : ℕ} {name : Bytes}
    (found : m.keyOf entry = .ok name) (unique : ∀ other, (entry, other) ∈ m.entries → other = name)
    (registered : m.server.queues.lookup name = some address) :
    m.erase (.key entry) true = .error .danglingEntry := by
  have gone : (m.destroyQueue name address).read (.key entry) = .error .danglingEntry := by
    refine keyOf_erased fun other mem => ?_
    have kept := List.mem_filter.mp mem
    exact absurd (unique other kept.1) (by simpa using kept.2)
  have here : m.read (.key entry) = .ok name := found
  rw [erase_read here, registered]
  change (m.destroyQueue name address).read (.key entry) >>= _ = _
  rw [gone]
  rfl

variable (s : Server)

theorem mem_ofServer {entry : ℕ} {name : Bytes} :
    (entry, name) ∈ (ofServer s).entries ↔ s.queueNames[entry]? = some name := by
  simp [ofServer, List.mk_mem_zipIdx_iff_getElem?]

theorem flushLoop_ofServer (turns : ℕ) :
    flushLoop (turns + 1) (ofServer s) (ofServer s).begin =
      some (if s.queues.keys = ∅ then .ok (ofServer s) else .error .danglingEntry) := by
  by_cases none : s.queues.keys = ∅
  · have empty : (ofServer s).begin = Option.none := by
      simp [begin, ofServer, Server.queueNames, none]
    rw [empty, if_pos none]
    rfl
  · obtain ⟨name, rest, names⟩ : ∃ name rest, s.queueNames = name :: rest := by
      refine List.exists_cons_of_ne_nil fun nil => none ?_
      rw [Server.queueNames] at nil
      rw [← Finset.sort_toFinset s.queues.keys (· ≤ ·), nil]
      rfl
    have first : (ofServer s).begin = some 0 := by simp [begin, ofServer, names]
    have key : (ofServer s).keyOf 0 = .ok name := by simp [keyOf, ofServer, names]
    have unique : ∀ other, (0, other) ∈ (ofServer s).entries → other = name := by
      intro other mem
      rw [mem_ofServer, names] at mem
      exact (Option.some.inj mem).symm
    have mem : name ∈ s.queues.keys := by
      rw [← Finset.mem_sort (· ≤ ·), ← Server.queueNames, names]
      exact List.mem_cons_self
    obtain ⟨address, registered⟩ := Finmap.mem_iff.mp (Finmap.mem_keys.mp mem)
    rw [first, flushLoop, erase_key key unique registered, if_neg none]

theorem flushAll_eq_loop (i turns : ℕ) :
    some (s.flushAll i) = (flushLoop (turns + 1) (ofServer s) (ofServer s).begin).map
      (Except.map fun m => m.server.end_ i "Flushed all queues.\r\n") := by
  rw [flushLoop_ofServer, Server.flushAll]
  split <;> rfl

theorem not_flushes {name : Bytes} {address : ℕ} (found : s.queues.lookup name = some address) :
    ¬(ofServer s).Flushes := by
  have some : s.queues.keys ≠ ∅ := by
    intro none
    have mem : name ∈ s.queues.keys := by
      rw [Finmap.mem_keys, Finmap.mem_iff]
      exact ⟨address, found⟩
    rw [none] at mem
    exact absurd mem (Finset.notMem_empty name)
  rintro ⟨turns, m', loop, -⟩
  cases turns with
  | zero => cases loop
  | succ turns =>
    rw [flushLoop_ofServer, if_neg some] at loop
    cases loop

/-- The loop does its work exactly when there is none. -/
theorem flushes_iff_empty : (ofServer s).Flushes ↔ s.queues.keys = ∅ := by
  constructor
  · intro flushes
    rw [Finset.eq_empty_iff_forall_notMem]
    intro name mem
    obtain ⟨address, found⟩ := Finmap.mem_iff.mp (Finmap.mem_keys.mp mem)
    exact not_flushes s found flushes
  · intro none
    have unregistered : ∀ name address, (ofServer s).server.queues.lookup name ≠ some address := by
      intro name address found
      have mem := Finmap.mem_keys.mpr (Finmap.mem_of_lookup_eq_some found)
      change name ∈ s.queues.keys at mem
      rw [none] at mem
      exact absurd mem (Finset.notMem_empty name)
    refine ⟨1, ofServer s, ?_, List.nodup_nil, fun address => ?_, rfl, fun name address found => ?_⟩
    · rw [flushLoop_ofServer, if_pos none]
    · constructor
      · exact fun mem => absurd mem List.not_mem_nil
      · rintro ⟨name, found⟩
        exact absurd found (unregistered name address)
    · exact absurd found (unregistered name address)

/-- With one queue, `q`, the second read of its name is a read of the erased entry. -/
theorem not_flushes_q : ¬∀ s : Server, (ofServer s).Flushes := by
  intro flushes
  have found := Server.lookup_withQueue (Server.empty 1024 (ascii "data")) (ascii "q") (ascii "q")
  rw [if_pos rfl] at found
  exact not_flushes _ found (flushes _)

end EntryMap

end Darner
