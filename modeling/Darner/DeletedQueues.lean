import Darner.QueueDirectories

/-! A crash, and a restart on the same data directory. The constructor of `queue_map`
makes a queue of every directory that it finds, and a directory has nothing that says
whether its queue was deleted: a deleted queue that was still held at the crash comes
back, with its items, under the name that `destroy` gave its directory. -/

namespace Darner.DeletedQueues
open OrderedStore LabelledRuns ServerMoves ServerWaiters FetchEvents ServerCalls QueueDirectories

variable {start s s' t u : Server} {kept : ℕ → ℕ}

abbrev DirectoryEntry := Bytes × Store Key Bytes

def filename (s : Server) (address : ℕ) : Bytes :=
  (s.object address).path.drop (s.dataPath.length + 1)

/-- What a crash leaves under the data path: the directories of the live queues, and
of each journal the first `kept` writes. A queue named `..` is not under it. -/
def directory (s : Server) (kept : ℕ → ℕ) : List DirectoryEntry :=
  (((List.range s.objects.length).filter s.live).map fun address =>
    (filename s address, (s.object address).journal.imageAt (kept address))).filter
      (·.1 ≠ ascii "..")

def withEntry (s : Server) (name : Bytes) (q : Queue) : Server :=
  { s with objects := s.objects ++ [q], queues := s.queues.insert name s.objects.length }

def load (s : Server) : List DirectoryEntry → Option Server
  | [] => some s
  | (name, image) :: entries =>
    match Queue.new image (s.pathOf name) with
    | none => none
    | some q => load (withEntry s name q) entries

/-- The server is started over a data directory, whose entries come in any order. The
journal of a queue named `.` is in the data directory itself, and its files are not
directories that a queue could be made of. -/
def Restarts (s : Server) (kept : ℕ → ℕ) (s' : Server) : Prop :=
  ∃ entries, entries.Perm (directory s kept) ∧ (∀ entry ∈ entries, entry.1 ≠ ascii ".") ∧
    load (.empty s.chunkSize s.dataPath) entries = some s'

/-- What was deleted is not there after a restart. -/
structure StaysDeleted (s : Server) (kept : ℕ → ℕ) (s' : Server) : Prop where
  names : ∀ name, name ∈ s'.queues ↔ name ∈ s.queues
  /-- The items under a name are those of the queue that was registered under it, which
  no `delete` and no `flush` has destroyed. -/
  items : ∀ name b, s'.queues.lookup name = some b → ∃ a, s.queues.lookup name = some a ∧
    (s.object a).destroyed = false ∧
    (s'.object b).contents = (s.object a).journal.imageAt (kept a)

theorem object_withEntry {name : Bytes} {q : Queue} :
    (withEntry s name q).object s.objects.length = q := by
  simp [Server.object, withEntry]

theorem object_withEntry_lt {name : Bytes} {q : Queue} {a : ℕ} (old : a < s.objects.length) :
    (withEntry s name q).object a = s.object a := by
  simp [Server.object, withEntry, List.getElem?_append_left old]

theorem load_objects {entries : List DirectoryEntry} (h : load s entries = some s') :
    s.objects.length ≤ s'.objects.length ∧ s'.dataPath = s.dataPath ∧
      ∀ a < s.objects.length, s'.object a = s.object a := by
  induction entries generalizing s with
  | nil =>
    obtain rfl := Option.some.inj h
    exact ⟨le_refl _, rfl, fun _ _ => rfl⟩
  | cons entry entries ih =>
    obtain ⟨name, image⟩ := entry
    rw [load] at h
    split at h
    · cases h
    case h_2 q new =>
      obtain ⟨more, path, same⟩ := ih h
      have length : (withEntry s name q).objects.length = s.objects.length + 1 := by
        simp [withEntry]
      refine ⟨by omega, path, fun a old => ?_⟩
      rw [same a (by omega), object_withEntry_lt old]

theorem load_lookup {entries : List DirectoryEntry} (h : load s entries = some s') (name : Bytes) :
    ((∀ entry ∈ entries, entry.1 ≠ name) ∧ s'.queues.lookup name = s.queues.lookup name) ∨
    ∃ image b, (name, image) ∈ entries ∧ s'.queues.lookup name = some b ∧
      Queue.new image (s.pathOf name) = some (s'.object b) := by
  induction entries generalizing s with
  | nil =>
    obtain rfl := Option.some.inj h
    exact .inl ⟨by simp, rfl⟩
  | cons entry entries ih =>
    obtain ⟨first, image⟩ := entry
    rw [load] at h
    split at h
    · cases h
    case h_2 q new =>
      rcases ih h with ⟨others, same⟩ | ⟨image', b, mem, found, new'⟩
      · rw [withEntry, lookup_insert_eq] at same
        split at same
        case isTrue here =>
          subst here
          refine .inr ⟨image, _, List.mem_cons_self, same, ?_⟩
          rw [(load_objects h).2.2 _ (by simp [withEntry]), object_withEntry]
          exact new
        case isFalse ne =>
          refine .inl ⟨fun entry mem => ?_, same⟩
          rcases List.mem_cons.mp mem with rfl | rest
          · exact fun here => ne here.symm
          · exact others entry rest
      · exact .inr ⟨image', b, List.mem_cons_of_mem _ mem, found, new'⟩

theorem loaded_withEntry {name : Bytes} {image : Store Key Bytes} {q : Queue} (loaded : Loaded s)
    (new : Queue.new image (s.pathOf name) = some q) : Loaded (withEntry s name q) where
  chunkSize_pos := loaded.chunkSize_pos
  conns := loaded.conns
  opened other mem := by
    rcases List.mem_append.mp mem with old | last
    · exact loaded.opened other old
    · obtain rfl := List.mem_singleton.mp last
      exact ⟨image, _, new⟩
  registered other a found := by
    rw [withEntry, lookup_insert_eq] at found
    rw [withEntry, List.length_append, List.length_singleton]
    split at found
    · have := Option.some.inj found
      omega
    · have := loaded.registered other a found
      omega
  distinct one two a found found' := by
    rw [withEntry, lookup_insert_eq] at found found'
    split at found <;> split at found'
    case isTrue.isTrue same same' => rw [same, same']
    case isTrue.isFalse =>
      have := loaded.registered two a found'
      have := Option.some.inj found
      omega
    case isFalse.isTrue =>
      have := loaded.registered one a found
      have := Option.some.inj found'
      omega
    case isFalse.isFalse => exact loaded.distinct one two a found found'
  home other a found := by
    rw [withEntry, lookup_insert_eq] at found
    split at found
    case isTrue same =>
      obtain ⟨head, tail, chunks, fresh⟩ := QueueRecovery.new_blank new
      rw [← Option.some.inj found, object_withEntry, same, fresh]
      rfl
    case isFalse =>
      rw [object_withEntry_lt (loaded.registered other a found)]
      exact loaded.home other a found

theorem load_loaded {entries : List DirectoryEntry} (loaded : Loaded s)
    (h : load s entries = some s') : Loaded s' := by
  induction entries generalizing s with
  | nil =>
    obtain rfl := Option.some.inj h
    exact loaded
  | cons entry entries ih =>
    obtain ⟨name, image⟩ := entry
    rw [load] at h
    split at h
    · cases h
    case h_2 q new => exact ih (loaded_withEntry loaded new) h

theorem restarts_loaded (pos : 0 < s.chunkSize) (again : Restarts s kept s') : Loaded s' := by
  obtain ⟨entries, -, -, h⟩ := again
  refine load_loaded ⟨Server.started_empty _ _ pos, fun name a found => ?_⟩ h
  rw [Server.empty, Finmap.lookup_empty] at found
  cases found

theorem mem_directory (sited : Sited s) {name : Bytes} {image : Store Key Bytes} :
    (name, image) ∈ directory s kept ↔ name ≠ ascii ".." ∧ ∃ a, s.live a = true ∧
      filename s a = name ∧ (s.object a).journal.imageAt (kept a) = image := by
  simp only [directory, List.mem_filter, List.mem_map, List.mem_range, Prod.mk.injEq, ne_eq,
    decide_not, Bool.not_eq_true', decide_eq_false_iff_not]
  constructor
  · rintro ⟨⟨a, ⟨-, live⟩, name, image⟩, ne⟩
    exact ⟨ne, a, live, name, image⟩
  · rintro ⟨ne, a, live, name, image⟩
    exact ⟨⟨a, ⟨live_made sited live, live⟩, name, image⟩, ne⟩

theorem restarts_mem (again : Restarts s kept s') (name : Bytes) :
    name ∈ s'.queues ↔ ∃ image, (name, image) ∈ directory s kept := by
  obtain ⟨entries, perm, -, h⟩ := again
  constructor
  · intro mem
    obtain ⟨b, found⟩ := Finmap.mem_iff.mp mem
    rcases load_lookup h name with ⟨-, same⟩ | ⟨image, b, entry, -⟩
    · rw [Server.empty, Finmap.lookup_empty, found] at same
      cases same
    · exact ⟨image, perm.mem_iff.mp entry⟩
  · rintro ⟨image, entry⟩
    rcases load_lookup h name with ⟨others, -⟩ | ⟨image, b, -, found, -⟩
    · exact absurd rfl (others _ (perm.mem_iff.mpr entry))
    · exact Finmap.mem_of_lookup_eq_some found

theorem restarts_items (again : Restarts s kept s') {name : Bytes} {b : ℕ}
    (found : s'.queues.lookup name = some b) :
    (name, (s'.object b).contents) ∈ directory s kept := by
  obtain ⟨entries, perm, -, h⟩ := again
  rcases load_lookup h name with ⟨-, same⟩ | ⟨image, b', entry, found', new⟩
  · rw [Server.empty, Finmap.lookup_empty, found] at same
    cases same
  · obtain rfl := Option.some.inj (found.symm.trans found')
    rw [QueueRecovery.contents_new new]
    exact perm.mem_iff.mp entry

/-- The server is between two events, or has made some of the calls of one. -/
inductive Within (start : Server) : Server → Prop where
  | between {s : Server} (reach : Reachable Server.Step start s) : Within start s
  | during {s t u : Server} {event : ServerEvent} {i : ℕ}
      (reach : Reachable Server.Step start s) (there : i < s.conns.length)
      (begins : Begins i event s t)
      (calls : Calls i (outcomes event) (Deletes s event) t u) : Within start u

/-- The server as a crash can find it: also when the directory of a queue that is being
deleted has its new name and the queue is still in the map. -/
inductive Amid (start : Server) : Server → Prop where
  | within {s : Server} (within : Within start s) : Amid start s
  | moved {s : Server} {name : Bytes} {a : ℕ} (within : Within start s)
      (found : s.queues.lookup name = some a) :
      Amid start (s.setObject a ((s.object a).destroy s.paths))

theorem Within.housed (within : Within start s) (loaded : Loaded start) : Housed s := by
  cases within with
  | between reach => exact (reachable_housed loaded reach).2
  | during reach there begins calls =>
    have before := Begins.housed begins (reachable_housed loaded reach).2
    exact (calls.invariant call_housed (begins.conns ▸ there) before).2

theorem filename_eq {a : ℕ} {name : Bytes} (path : (s.object a).path = s.pathOf name) :
    filename s a = name := by
  rw [filename, path, Server.pathOf]
  simp

theorem numbered_ne (name : Bytes) (n : ℕ) : numbered name n ≠ ascii ".." := by
  intro same
  have digits := chars_decimalText n
  have all : ∀ c ∈ Nat.toDigits 10 n, c.isDigit = true := fun c mem =>
    Nat.isDigit_of_mem_toDigits (by omega) (by omega) mem
  have some : Nat.toDigits 10 n ≠ [] := Nat.toDigits_ne_nil
  rw [← digits] at all some
  -- the second dot would be a digit
  have last := congrArg List.reverse same
  rw [numbered, List.reverse_append, List.reverse_cons] at last
  cases text : (decimalText n).reverse with
  | nil => simp [List.reverse_eq_nil_iff.mp text] at some
  | cons b rest =>
    rw [text] at last
    have dot : b = 46 := (List.cons.inj last).1
    have mem : b ∈ decimalText n := by
      rw [← List.mem_reverse, text]
      exact List.mem_cons_self
    have wrong := all _ (List.mem_map_of_mem mem)
    rw [dot] at wrong
    revert wrong
    decide

/-- At the crash no deleted queue is held by a stream or a waiter, and no queue has the
name of the parent directory. -/
structure Swept (s : Server) : Prop where
  released : ∀ a, s.live a = true → (s.object a).destroyed = false
  inside : s.queues.lookup (ascii "..") = none

theorem registered_of_released (housed : Housed s) {a : ℕ} (live : s.live a = true)
    (kept : (s.object a).destroyed = false) :
    ∃ name, s.queues.lookup name = some a ∧ filename s a = name := by
  by_cases registered : Registered s a
  · obtain ⟨name, found⟩ := registered
    exact ⟨name, found, filename_eq (housed.home found).1⟩
  · rw [(housed.away live registered).1] at kept
    cases kept

theorem staysDeleted_of_gone (housed : Housed s) (gone : Swept s) (again : Restarts s kept s') :
    StaysDeleted s kept s' where
  names name := by
    rw [restarts_mem again]
    constructor
    · rintro ⟨image, mem⟩
      obtain ⟨-, a, live, same, -⟩ := (mem_directory housed.sited).mp mem
      obtain ⟨other, found, same'⟩ := registered_of_released housed live (gone.released a live)
      obtain rfl := same.symm.trans same'
      exact Finmap.mem_of_lookup_eq_some found
    · intro mem
      obtain ⟨a, found⟩ := Finmap.mem_iff.mp mem
      refine ⟨_, (mem_directory housed.sited).mpr ⟨?_, a, live_registered found,
        filename_eq (housed.home found).1, rfl⟩⟩
      rintro rfl
      rw [gone.inside] at found
      cases found
  items name b found := by
    have mem := restarts_items again found
    obtain ⟨-, a, live, same, image⟩ := (mem_directory housed.sited).mp mem
    have kept := gone.released a live
    obtain ⟨other, found', same'⟩ := registered_of_released housed live kept
    obtain rfl := same.symm.trans same'
    exact ⟨a, found', kept, image.symm⟩

theorem not_staysDeleted {a : ℕ} {name : Bytes} {n : ℕ} (sited : Sited s) (live : s.live a = true)
    (path : (s.object a).path = s.pathOf (numbered name n))
    (free : s.queues.lookup (numbered name n) = none) (again : Restarts s kept s') :
    ¬StaysDeleted s kept s' := by
  intro stays
  have back : numbered name n ∈ s'.queues := (restarts_mem again _).mpr
    ⟨_, (mem_directory sited).mpr ⟨numbered_ne name n, a, live, filename_eq path, rfl⟩⟩
  obtain ⟨b, found⟩ := Finmap.mem_iff.mp ((stays.names _).mp back)
  rw [free] at found
  cases found

theorem gone_of_staysDeleted (housed : Housed s) (stays : StaysDeleted s kept s')
    (again : Restarts s kept s') : Swept s where
  released a live := by
    by_contra destroyed
    have unregistered : ¬Registered s a := fun ⟨name, found⟩ => destroyed (housed.home found).2
    obtain ⟨-, name, n, path⟩ := housed.away live unregistered
    refine not_staysDeleted housed.sited live path ?_ again stays
    cases found : s.queues.lookup (numbered name n) with
    | none => rfl
    | some b =>
      -- it would be in the directory of the deleted queue
      have same := housed.apart live (live_registered found) (path.trans (housed.home found).1.symm)
      exact absurd ⟨_, same ▸ found⟩ unregistered
  inside := by
    cases found : s.queues.lookup (ascii "..") with
    | none => rfl
    | some a =>
      have back := (stays.names _).mpr (Finmap.mem_of_lookup_eq_some found)
      obtain ⟨image, mem⟩ := (restarts_mem again _).mp back
      exact absurd rfl ((mem_directory housed.sited).mp mem).1

theorem moved_not_staysDeleted {name : Bytes} {a : ℕ} (housed : Housed s)
    (found : s.queues.lookup name = some a)
    (again : Restarts (s.setObject a ((s.object a).destroy s.paths)) kept s') :
    ¬StaysDeleted (s.setObject a ((s.object a).destroy s.paths)) kept s' := by
  obtain ⟨path, alive⟩ := housed.home found
  have made := housed.sited.named name a found
  obtain ⟨fresh, n, numberedPath⟩ := freshPath_spec (s.pathOf name) s.paths
  have sited : Sited (s.setObject a ((s.object a).destroy s.paths)) :=
    housed.sited.congr rfl (List.length_set ..) fun _ _ => id
  have self : ((s.setObject a ((s.object a).destroy s.paths)).object a).path =
      s.pathOf (numbered name n) := by
    rw [Server.object_setObject_self _ made, Queue.destroy, alive, path]
    refine numberedPath.trans ?_
    simp [numbered, Server.pathOf]
  refine not_staysDeleted sited (live_registered found) self ?_ again
  cases other : s.queues.lookup (numbered name n) with
  | none => exact other
  | some b =>
    have taken := mem_paths housed.sited (live_registered other)
    rw [(housed.home other).1] at taken
    refine absurd ?_ fresh
    rw [numberedPath]
    convert taken using 1
    simp [numbered, Server.pathOf]

/-- Wherever a crash finds the server, what was deleted stays deleted across a restart
if and only if no deleted queue was still held. -/
theorem restart_keeps_deleted_iff (loaded : Loaded start) (amid : Amid start s)
    (again : Restarts s kept s') : StaysDeleted s kept s' ↔ Swept s := by
  cases amid with
  | within within =>
    have housed := within.housed loaded
    exact ⟨fun stays => gone_of_staysDeleted housed stays again,
      fun gone => staysDeleted_of_gone housed gone again⟩
  | @moved u name a within found =>
    have housed := within.housed loaded
    constructor
    · exact fun stays => absurd stays (moved_not_staysDeleted housed found again)
    · intro gone
      have alive := gone.released a (live_registered found)
      rw [Server.object_setObject_self _ (housed.sited.named name a found), Queue.destroy,
        (housed.home found).2] at alive
      cases alive

def flushed : List ServerEvent :=
  let env : Env := ⟨fun _ => true, 0, 0, 0⟩
  [.accept, .recv 0 (ascii "set q 0 0 1\r\nx\r\nflush q\r\nget p\r\n"), .readDone 0 env,
    .readDone 0 env, .writeDone 0 env, .readDone 0 env, .writeDone 0 env, .readDone 0 env]

theorem gone_of_all (h : (List.range s.objects.length).all (fun a =>
      !(s.live a && (s.object a).destroyed)) = true)
    (inside : s.queues.lookup (ascii "..") = none) : Swept s where
  released a live := by
    by_cases made : a < s.objects.length
    · have kept := List.all_eq_true.mp h a (List.mem_range.mpr made)
      simpa [live] using kept
    · rw [Server.object_beyond (by omega)]
      rfl
  inside := inside

theorem restart_keeps_flushed : ∃ s s', Amid (.empty 64 [47]) s ∧
    Restarts s (fun _ => 9) s' ∧ s.queues.lookup (ascii "q") = some 1 ∧
    StaysDeleted s (fun _ => 9) s' := by
  have facts : ((Server.empty 64 [47]).run flushed).toOption.map (fun s =>
      ((List.range s.objects.length).all (fun a => !(s.live a && (s.object a).destroyed)),
        s.queues.lookup (ascii ".."), s.queues.lookup (ascii "q"),
        (directory s fun _ => 9).all (·.1 ≠ ascii "."),
        (load (.empty s.chunkSize s.dataPath) (directory s fun _ => 9)).isSome)) =
      some (true, none, some 1, true, true) := by decide
  cases run : (Server.empty 64 [47]).run flushed with
  | error fault => simp [run, Except.toOption] at facts
  | ok s =>
    simp only [run, Except.toOption, Option.map_some, Option.some.injEq, Prod.mk.injEq,
      List.all_eq_true (l := directory s fun _ => 9), decide_eq_true_eq] at facts
    obtain ⟨released, inside, found, plain, again⟩ := facts
    obtain ⟨s', again⟩ := Option.isSome_iff_exists.mp again
    have amid : Amid (.empty 64 [47]) s := .within (.between ⟨_, Server.runs_of_run run⟩)
    have restarts : Restarts s (fun _ => 9) s' := ⟨_, .refl _, plain, again⟩
    exact ⟨s, s', amid, restarts, found, (restart_keeps_deleted_iff loaded_empty amid restarts).mpr
      (gone_of_all released inside)⟩

def deletedOpen : List ServerEvent :=
  let env : Env := ⟨fun _ => true, 0, 0, 0⟩
  [.accept, .recv 0 (ascii "set q 0 0 1\r\nx\r\nget q/open\r\n"), .readDone 0 env,
    .readDone 0 env, .writeDone 0 env, .readDone 0 env,
    .accept, .recv 1 (ascii "delete q\r\n"), .readDone 1 env, .writeDone 1 env]

/-- After a crash the deleted `q` is there as `q.0`, and its item can be popped. -/
theorem deleted_queue_returns : ∃ s s', Amid (.empty 64 [47]) s ∧ Restarts s (fun _ => 9) s' ∧
    s.queues.lookup (ascii "q.0") = none ∧ s'.queues.lookup (ascii "q.0") = some 0 ∧
    (s'.object 0).count = 1 ∧ ¬StaysDeleted s (fun _ => 9) s' := by
  have facts : ((Server.empty 64 [47]).run deletedOpen).toOption.map (fun s =>
      (s.queues.lookup (ascii "q.0"), (directory s fun _ => 9).all (·.1 ≠ ascii "."),
        (load (.empty s.chunkSize s.dataPath) (directory s fun _ => 9)).map (fun s' =>
          (s'.queues.lookup (ascii "q.0"), (s'.object 0).count)))) =
      some (none, true, some (some 0, 1)) := by decide
  cases run : (Server.empty 64 [47]).run deletedOpen with
  | error fault => simp [run, Except.toOption] at facts
  | ok s =>
    simp only [run, Except.toOption, Option.map_some, Option.some.injEq, Prod.mk.injEq,
      List.all_eq_true, decide_eq_true_eq] at facts
    obtain ⟨absent, plain, again⟩ := facts
    obtain ⟨s', again, facts⟩ := Option.map_eq_some_iff.mp again
    obtain ⟨back, count⟩ := Prod.mk.inj facts
    refine ⟨s, s', .within (.between ⟨_, Server.runs_of_run run⟩), ⟨_, .refl _, plain, again⟩,
      absent, back, count, fun stays => ?_⟩
    obtain ⟨a, found, -⟩ := stays.items _ _ back
    rw [absent] at found
    cases found

end Darner.DeletedQueues
