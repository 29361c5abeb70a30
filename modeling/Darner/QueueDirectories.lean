import Darner.ServerCalls

/-! Where the live queues keep their journals. A registered queue is in the directory
of its name; a queue that was deleted is in that directory with a number appended,
for as long as a stream or a waiter holds it. No two live queues are in one directory,
and the only directory that a new queue can find in use is the one of a deleted queue:
a queue named `q.0` cannot be made while a deleted `q` is still held there. -/

namespace Darner.QueueDirectories
open OrderedStore LabelledRuns ServerMoves ServerWaiters FetchDeeds FetchEvents ServerCalls

variable {s s' t u : Server} {i address : ℕ}

theorem chars_decimalText (n : ℕ) :
    (decimalText n).map (fun b => Char.ofNat b.toNat) = Nat.toDigits 10 n := by
  rw [decimalText, List.map_map]
  conv_rhs => rw [← List.map_id (Nat.toDigits 10 n)]
  refine List.map_congr_left fun c mem => ?_
  have digit := Nat.isDigit_of_mem_toDigits (by omega) (by omega) mem
  have small : c.toNat < 256 := by
    simp only [Char.isDigit, Bool.and_eq_true, decide_eq_true_eq] at digit
    have := UInt32.le_iff_toNat_le.mp digit.2
    change c.val.toNat < 256
    exact lt_of_le_of_lt this (by decide)
  simp only [Function.comp_apply, id_eq]
  rw [UInt8.toNat_ofNat_of_lt' small, Char.ofNat_toNat]

theorem decimalText_injective : Function.Injective decimalText := by
  intro n m same
  have digits : Nat.toDigits 10 n = Nat.toDigits 10 m := by
    rw [← chars_decimalText, ← chars_decimalText, same]
  have value := congrArg (Nat.ofDigitChars 10 · 0) digits
  simpa using value

def numbered (name : Bytes) (n : ℕ) : Bytes := name ++ 46 :: decimalText n

theorem numbered_injective (name : Bytes) : Function.Injective (numbered name) := by
  intro n m same
  have tails := List.append_cancel_left same
  exact decimalText_injective (List.cons.inj tails).2

theorem freshPath_spec (path : Bytes) (taken : List Bytes) :
    Queue.freshPath path taken ∉ taken ∧ ∃ n, Queue.freshPath path taken = numbered path n := by
  have candidates : Queue.freshPath path taken =
      (((List.range (taken.length + 1)).map (numbered path)).find? (· ∉ taken)).getD path := rfl
  rw [candidates]
  cases found : ((List.range (taken.length + 1)).map (numbered path)).find? (· ∉ taken) with
  | some fresh =>
    obtain ⟨n, -, same⟩ := List.mem_map.mp (List.mem_of_find?_eq_some found)
    exact ⟨by simpa using List.find?_some found, n, same.symm⟩
  | none =>
    -- there are more candidates than directories
    have all : (List.range (taken.length + 1)).map (numbered path) ⊆ taken := by
      intro candidate mem
      simpa using List.find?_eq_none.mp found candidate mem
    have nodup := (List.nodup_range (n := taken.length + 1)).map (numbered_injective path)
    have le := (List.subperm_of_subset nodup all).length_le
    rw [List.length_map, List.length_range] at le
    omega

theorem live_iff : s.live address = true ↔ Registered s address ∨
    (∃ j, (s.conn j).popStream.queue = some address ∨ (s.conn j).pushStream.queue = some address) ∨
    (s.object address).waiters ≠ [] := by
  unfold Server.live
  simp only [Bool.or_eq_true, decide_eq_true_eq, List.any_eq_true, Bool.not_eq_true',
    List.isEmpty_eq_false_iff, or_assoc]
  refine or_congr ?_ (or_congr ?_ .rfl)
  · constructor
    · rintro ⟨name, -, found⟩
      exact ⟨name, found⟩
    · rintro ⟨name, found⟩
      refine ⟨name, ?_, found⟩
      rw [Finmap.mem_keys]
      exact Finmap.mem_iff.mpr ⟨_, found⟩
  · constructor
    · rintro ⟨h, mem, isOpen⟩
      obtain ⟨j, row⟩ := List.mem_iff_getElem?.mp mem
      refine ⟨j, ?_⟩
      rw [Server.conn, row, Option.getD_some]
      exact isOpen
    · rintro ⟨j, isOpen⟩
      have there : j < s.conns.length := by
        by_contra beyond
        rw [Server.conn_beyond (by omega)] at isOpen
        rcases isOpen with wrong | wrong <;> cases wrong
      exact ⟨s.conn j, List.mem_of_getElem? (conn_row there), isOpen⟩

theorem live_made (sited : Sited s) (live : s.live address = true) : address < s.objects.length := by
  rcases live_iff.mp live with ⟨name, found⟩ | ⟨j, isOpen⟩ | waiters
  · exact sited.named name address found
  · exact sited.held j address isOpen
  · obtain ⟨w, mem⟩ := List.exists_mem_of_ne_nil _ waiters
    exact Server.waiter_there mem

theorem mem_paths (sited : Sited s) (live : s.live address = true) :
    (s.object address).path ∈ s.paths :=
  List.mem_map.mpr ⟨address, List.mem_filter.mpr ⟨List.mem_range.mpr (live_made sited live), live⟩, rfl⟩

theorem live_registered {name : Bytes} (found : s.queues.lookup name = some address) :
    s.live address = true :=
  live_iff.mpr (.inl ⟨name, found⟩)

theorem pathOf_injective {name other : Bytes} (same : s.pathOf name = s.pathOf other) :
    name = other :=
  (List.cons.inj (List.append_cancel_left same)).2

/-- The directories of the live queues. -/
structure Housed (s : Server) : Prop where
  sited : Sited s
  home : ∀ {name a}, s.queues.lookup name = some a →
    (s.object a).path = s.pathOf name ∧ (s.object a).destroyed = false
  away : ∀ {a}, s.live a = true → ¬Registered s a →
    (s.object a).destroyed = true ∧ ∃ name n, (s.object a).path = s.pathOf (numbered name n)
  apart : ∀ {a b}, s.live a = true → s.live b = true → (s.object a).path = (s.object b).path → a = b

theorem Housed.shrink (h : Housed s) (sited : Sited s') (queues : s'.queues = s.queues)
    (dataPath : s'.dataPath = s.dataPath) (live : ∀ {a}, s'.live a = true → s.live a = true)
    (path : ∀ a, (s'.object a).path = (s.object a).path)
    (destroyed : ∀ a, (s'.object a).destroyed = (s.object a).destroyed) : Housed s' where
  sited := sited
  home found := by
    rw [path, destroyed, Server.pathOf, dataPath]
    exact h.home (queues ▸ found)
  away isLive free := by
    rw [path, destroyed]
    simp only [Server.pathOf, dataPath]
    refine h.away (live isLive) fun ⟨name, found⟩ => free ⟨name, ?_⟩
    rw [queues]
    exact found
  apart one two same := h.apart (live one) (live two) (by rwa [path, path] at same)

theorem live_keeps (keeps : KeepsMap i s s') {a : ℕ} (live : s'.live a = true) : s.live a = true := by
  rw [live_iff] at live ⊢
  rcases live with ⟨name, found⟩ | ⟨j, isOpen⟩ | waiters
  · exact .inl ⟨name, keeps.queues ▸ found⟩
  · by_cases same : j = i
    · subst same
      rcases keeps.streams a isOpen with before | registered
      · exact .inr (.inl ⟨j, before⟩)
      · exact .inl registered
    · rw [keeps.others j same] at isOpen
      exact .inr (.inl ⟨j, isOpen⟩)
  · obtain ⟨w, mem⟩ := List.exists_mem_of_ne_nil _ waiters
    obtain ⟨w', mem', -⟩ := (keeps.works a).nudges.waiters w mem
    exact .inr (.inr (List.ne_nil_of_mem mem'))

theorem Housed.make {name : Bytes} (h : Housed s) (sited : Sited (s.withQueue name))
    (absent : s.queues.lookup name = none) (unused : s.pathOf name ∉ s.paths) :
    Housed (s.withQueue name) := by
  have old : ∀ {a}, (s.withQueue name).live a = true → a ≠ s.objects.length → s.live a = true := by
    intro a live ne
    rw [live_iff] at live ⊢
    rcases live with ⟨other, found⟩ | isOpen | waiters
    · rw [Server.lookup_withQueue] at found
      split at found
      · exact absurd (Option.some.inj found).symm ne
      · exact .inl ⟨other, found⟩
    · exact .inr (.inl isOpen)
    · rw [Server.object_withQueue_ne s name ne] at waiters
      exact .inr (.inr waiters)
  have object : ∀ {a}, a ≠ s.objects.length → (s.withQueue name).object a = s.object a :=
    fun ne => Server.object_withQueue_ne s name ne
  have self : (s.withQueue name).object s.objects.length = .blank ∅ (s.pathOf name) :=
    Server.object_withQueue_self s name
  -- a live queue in the new directory would have been in the way
  have free : ∀ {a}, s.live a = true → (s.object a).path ≠ s.pathOf name := fun live same =>
    unused (same ▸ mem_paths h.sited live)
  refine ⟨sited, fun {other a} found => ?_, fun {a} live none => ?_, fun {a b} one two same => ?_⟩
  · rw [Server.lookup_withQueue] at found
    split at found
    case isTrue same =>
      rw [← Option.some.inj found, self, same]
      exact ⟨rfl, rfl⟩
    case isFalse =>
      rw [object (Nat.ne_of_lt (h.sited.named other a found))]
      exact h.home found
  · by_cases new : a = s.objects.length
    · exact absurd ⟨name, by rw [Server.lookup_withQueue, if_pos rfl, new]⟩ none
    · rw [object new]
      refine h.away (old live new) ?_
      rintro ⟨other, found⟩
      exact none ⟨other, Server.lookup_withQueue_old absent found⟩
  · by_cases newA : a = s.objects.length <;> by_cases newB : b = s.objects.length
    · rw [newA, newB]
    · rw [newA, self, object newB] at same
      exact absurd same.symm (free (old two newB))
    · rw [newB, self, object newA] at same
      exact absurd same (free (old one newA))
    · rw [object newA, object newB] at same
      exact h.apart (old one newA) (old two newB) same

theorem live_delete {name : Bytes} {a b : ℕ} (found : s.queues.lookup name = some a)
    (live : (s.withoutQueue name a).live b = true) : s.live b = true := by
  rw [live_iff] at live ⊢
  rcases live with ⟨other, found'⟩ | isOpen | waiters
  · exact .inl ⟨other, Server.lookup_erase found'⟩
  · exact .inr (.inl isOpen)
  · by_cases same : b = a
    · subst same
      exact .inl ⟨name, found⟩
    · have kept : (s.withoutQueue name a).object b = s.object b :=
        Server.object_setObject_ne s _ same
      rw [kept] at waiters
      exact .inr (.inr waiters)

theorem Housed.delete {name : Bytes} {a : ℕ} (h : Housed s) (sited : Sited (s.withoutQueue name a))
    (found : s.queues.lookup name = some a) : Housed (s.withoutQueue name a) := by
  obtain ⟨path, alive⟩ := h.home found
  obtain ⟨fresh, n, numberedPath⟩ := freshPath_spec (s.pathOf name) s.paths
  have self : (s.withoutQueue name a).object a =
      { s.object a with path := Queue.freshPath (s.pathOf name) s.paths, destroyed := true } := by
    refine (Server.object_setObject_self _ (h.sited.named name a found)).trans ?_
    rw [Queue.destroy, alive, path]
    rfl
  have object : ∀ {b}, b ≠ a → (s.withoutQueue name a).object b = s.object b := fun ne =>
    Server.object_setObject_ne s _ ne
  have old : ∀ {b}, (s.withoutQueue name a).live b = true → s.live b = true := live_delete found
  have others : ∀ {other b}, (s.withoutQueue name a).queues.lookup other = some b →
      other ≠ name ∧ s.queues.lookup other = some b ∧ b ≠ a := by
    intro other b found'
    have ne : other ≠ name := by
      rintro rfl
      have none : (s.withoutQueue other a).queues.lookup other = none := Finmap.lookup_erase _ _
      rw [none] at found'
      cases found'
    have before := Server.lookup_erase found'
    refine ⟨ne, before, ?_⟩
    rintro rfl
    exact ne (pathOf_injective ((h.home before).1.symm.trans path))
  refine ⟨sited, fun {other b} found' => ?_, fun {b} live none => ?_, fun {b c} one two same => ?_⟩
  · obtain ⟨-, before, ne⟩ := others found'
    rw [object ne]
    exact h.home before
  · by_cases same : b = a
    · rw [same, self]
      refine ⟨rfl, name, n, numberedPath.trans ?_⟩
      simp [numbered, Server.pathOf]
      rfl
    · rw [object same]
      refine h.away (old live) ?_
      rintro ⟨other, found'⟩
      refine none ⟨other, ?_⟩
      refine (Finmap.lookup_erase_ne ?_).trans found'
      rintro rfl
      rw [found] at found'
      exact same (Option.some.inj found').symm
  · by_cases isA : b = a <;> by_cases isA' : c = a
    · rw [isA, isA']
    · rw [isA, self, object isA'] at same
      have taken := mem_paths h.sited (old two)
      rw [← same] at taken
      exact absurd taken fresh
    · rw [isA', self, object isA] at same
      have taken := mem_paths h.sited (old one)
      rw [same] at taken
      exact absurd taken fresh
    · rw [object isA, object isA'] at same
      exact h.apart (old one) (old two) same

theorem call_housed {io : Io} {deletes : Bytes → Prop} (s s' : Server)
    (there : i < s.conns.length) (h : Housed s) (call : Call i io deletes s s') : Housed s' := by
  have sited := call_sited s s' there h.sited call
  rcases call.cases there with ⟨name, absent, unused, rfl⟩ | ⟨name, a, -, found, rfl⟩ | keeps
  · exact h.make sited absent unused
  · exact h.delete sited found
  · exact h.shrink sited keeps.queues keeps.dataPath (live_keeps keeps)
      (fun a => (keeps.works a).path) fun a => (keeps.works a).destroyed

theorem live_setObject {q : Queue} {a : ℕ}
    (waiters : q.waiters ≠ [] → (s.object address).waiters ≠ [])
    (live : (s.setObject address q).live a = true) : s.live a = true := by
  rw [live_iff] at live ⊢
  rcases live with registered | isOpen | some
  · exact .inl registered
  · exact .inr (.inl isOpen)
  · rcases s.object_setObject_cases address q a with kept | ⟨rfl, set⟩
    · rw [kept] at some
      exact .inr (.inr some)
    · rw [set] at some
      exact .inr (.inr (waiters some))

theorem Begins.housed {event : ServerEvent} (begins : Begins i event s t) (h : Housed s) :
    Housed t := by
  have sited := begins.sited h.sited
  cases begins with
  | ready => exact h
  | @woken a node w env same due cb =>
    refine h.shrink sited rfl rfl (live_setObject fun some => ?_)
      (object_setObject_field Queue.path rfl) (object_setObject_field Queue.destroyed rfl)
    obtain ⟨w', mem⟩ := List.exists_mem_of_ne_nil _ some
    exact List.ne_nil_of_mem (waiters_waiterWakeup _ _ w' mem).1

theorem Leaves.housed (there : i < s.conns.length) (leaves : Leaves i s s') (h : Housed s) :
    Housed s' := by
  have sited := leaves.sited there h.sited
  cases leaves with
  | done => exact h
  | @waits a waitMs found closed empty =>
    refine h.shrink sited rfl rfl (fun {b} live => ?_)
      (object_setObject_field (q := (s.object a).wait waitMs i) Queue.path rfl)
      (object_setObject_field (q := (s.object a).wait waitMs i) Queue.destroyed rfl)
    rw [live_iff] at live ⊢
    rcases live with registered | ⟨j, isOpen⟩ | some
    · exact .inl registered
    · refine .inr (.inl ⟨j, ?_⟩)
      rw [conn_waits there] at isOpen
      split at isOpen
      case isTrue same => rwa [same]
      case isFalse => exact isOpen
    · -- the queue that is waited for is registered
      by_cases same : b = a
      · exact .inl ⟨_, same ▸ found⟩
      · have kept : ((s.setObject a ((s.object a).wait waitMs i)).setPending i
            (.wait a (s.object a).nextNode)).object b = s.object b :=
          Server.object_setObject_ne s _ same
        rw [kept] at some
        exact .inr (.inr some)

theorem step_housed {event : ServerEvent} (awake : Awake none s) (h : Housed s)
    (run : s.Step event s') : Housed s' := by
  have sited := step_sited awake h.sited run
  cases step_serves awake run with
  | nothing => exact h
  | accept =>
    refine h.shrink sited rfl rfl (fun {a} live => ?_) (fun _ => rfl) fun _ => rfl
    rw [live_iff] at live ⊢
    rcases live with registered | ⟨j, isOpen⟩ | some
    · exact .inl registered
    · rcases conn_accept s _ j with same | new
      · exact .inr (.inl ⟨j, same ▸ isOpen⟩)
      · rw [new] at isOpen
        rcases isOpen with wrong | wrong <;> cases wrong
    · exact .inr (.inr some)
  | expire a node =>
    refine h.shrink sited rfl rfl (live_setObject fun some => ?_)
      (object_setObject_field Queue.path rfl) (object_setObject_field Queue.destroyed rfl)
    obtain ⟨w, mem⟩ := List.exists_mem_of_ne_nil _ some
    obtain ⟨w', mem', -⟩ := (nudges_expireTimer _ node).waiters w mem
    exact List.ne_nil_of_mem mem'
  | calls who there begins calls leaves =>
    obtain ⟨there', housed⟩ := calls.invariant call_housed (begins.conns ▸ there)
      (Begins.housed begins h)
    exact Leaves.housed there' leaves housed

def Blocked (s : Server) (name : Bytes) : Prop :=
  s.queues.lookup name = none ∧ ∃ a, s.live a = true ∧ (s.object a).path = s.pathOf name

theorem newQueue_error {name : Bytes} {fault : Fault} (absent : s.queues.lookup name = none)
    (failed : s.newQueue name = .error fault) : Blocked s name := by
  unfold Server.newQueue at failed
  split at failed
  case isTrue taken =>
    obtain ⟨a, mem, path⟩ := List.mem_map.mp (by simpa using taken : s.pathOf name ∈ s.paths)
    exact ⟨absent, a, (List.mem_filter.mp mem).2, path⟩
  case isFalse => cases failed

theorem queueAt_error {name : Bytes} {fault : Fault} (failed : s.queueAt name = .error fault) :
    Blocked s name := by
  unfold Server.queueAt at failed
  split at failed
  · cases failed
  case h_2 absent => exact newQueue_error absent failed

theorem blocked_keeps {name : Bytes} (keeps : KeepsMap i s t) (blocked : Blocked t name) :
    Blocked s name := by
  obtain ⟨absent, a, live, path⟩ := blocked
  refine ⟨keeps.queues ▸ absent, a, live_keeps keeps live, ?_⟩
  rw [← (keeps.works a).path, path, Server.pathOf, keeps.dataPath, Server.pathOf]

theorem getPop_error {env : Env} (failed : s.getPop i env = .error .cantOpenJournal) :
    Blocked s (s.conn i).req.queue := by
  unfold Server.getPop at failed
  dsimp only at failed
  split at failed
  · cases failed
  · rcases bind_error failed with failed | ⟨⟨a, t⟩, -, failed⟩
    · exact queueAt_error failed
    · dsimp only at failed
      split at failed
      · cases failed
      · cases failed
      · split at failed <;> cases failed

theorem get_error {env : Env} (there : i < s.conns.length)
    (failed : s.get i env = .error .cantOpenJournal) : Blocked s (s.conn i).req.queue := by
  unfold Server.get at failed
  dsimp only at failed
  split at failed
  · cases failed
  split at failed
  · cases failed
  split at failed
  · split at failed
    · cases failed
    case h_2 t closed =>
      rw [← (pending_popClose there closed).2.2]
      exact blocked_keeps (keeps_popClose there closed) (getPop_error failed)
  · split at failed
    · cases failed
    · exact getPop_error failed

theorem set_error (failed : s.set i = .error .cantOpenJournal) :
    Blocked s (s.conn i).req.queue := by
  rcases bind_error failed with failed | ⟨⟨a, t⟩, -, failed⟩
  · exact queueAt_error failed
  · dsimp only at failed
    split at failed <;> cases failed

theorem eraseQueue_error {name : Bytes} {recreate : Bool} {fault : Fault} (h : Housed s) :
    s.eraseQueue name recreate ≠ .error fault := by
  intro failed
  unfold Server.eraseQueue at failed
  split at failed
  · cases failed
  case h_2 a found =>
    obtain ⟨path, alive⟩ := h.home found
    dsimp only at failed
    split at failed
    · change ((s.withoutQueue name a).newQueue name).map Prod.snd = .error fault at failed
      cases new : (s.withoutQueue name a).newQueue name with
      | ok pair =>
        rw [new] at failed
        cases failed
      | error fault' =>
        obtain ⟨-, b, live, path'⟩ := newQueue_error (Finmap.lookup_erase _ _) new
        have path' : ((s.withoutQueue name a).object b).path = s.pathOf name := path'
        -- the deleted queue has moved away, and no other one was there
        by_cases same : b = a
        · obtain ⟨-, n, fresh⟩ := freshPath_spec (s.pathOf name) s.paths
          have self : (s.withoutQueue name a).object a = (s.object a).destroy s.paths :=
            Server.object_setObject_self _ (h.sited.named name a found)
          rw [same, self, Queue.destroy, alive, path] at path'
          have longer := congrArg List.length (fresh.symm.trans path')
          simp [numbered] at longer
        · have kept : (s.withoutQueue name a).object b = s.object b :=
            Server.object_setObject_ne s _ same
          rw [kept] at path'
          exact same (h.apart (live_delete found live) (live_registered found)
            (path'.trans path.symm))
    · cases failed

def opened (s : Server) : ServerEvent → Option Bytes
  | .readDone i env =>
    (parsed s i (.readDone i env)).bind fun req =>
      if req.type = .get ∨ req.type = .set then some req.queue else none
  | .callback address node _ => (s.dueWaiter address node).map fun w => (s.conn w.cb).req.queue
  | _ => none

theorem dispatch_error {env : Env} (there : i < s.conns.length) (h : Housed s)
    (failed : s.dispatch i env = .error .cantOpenJournal) :
    ((s.conn i).req.type = .get ∨ (s.conn i).req.type = .set) ∧ Blocked s (s.conn i).req.queue := by
  unfold Server.dispatch at failed
  split at failed
  case h_1 => cases failed
  case h_2 => cases failed
  case h_3 => cases failed
  case h_4 =>
    rcases bind_error failed with failed | ⟨t, -, failed⟩
    · exact absurd failed (eraseQueue_error h)
    · cases failed
  case h_5 =>
    rcases bind_error failed with failed | ⟨t, -, failed⟩
    · exact absurd failed (eraseQueue_error h)
    · cases failed
  case h_6 =>
    unfold Server.flushAll at failed
    split at failed <;> cases failed
  case h_7 type =>
    have blocked := blocked_keeps (keeps_stats (i := i) s.countSet.stats) (set_error failed)
    exact ⟨.inr type, blocked⟩
  case h_8 type =>
    have there' : i < s.countGet.conns.length := there
    have blocked := blocked_keeps (keeps_stats (i := i) s.countGet.stats) (get_error there' failed)
    exact ⟨.inl type, blocked⟩

theorem step_error {event : ServerEvent} (awake : Awake none s) (h : Housed s)
    (failed : s.step event = .error .cantOpenJournal) :
    ∃ name, opened s event = some name ∧ Blocked s name := by
  cases event with
  | accept => cases failed
  | recv i data => cases failed
  | readFailed i env => cases failed
  | writeDone i env => cases failed
  | writeFailed i env => cases failed
  | expire a node => cases failed
  | readDone i env =>
    have failed : s.readDone i env = .error .cantOpenJournal := failed
    unfold Server.readDone at failed
    dsimp only at failed
    split at failed
    case h_1 reading =>
      have there : i < s.conns.length := Server.conn_there (by simp [reading])
      split at failed
      case h_1 n line =>
        unfold Server.parseRequest at failed
        dsimp only at failed
        split at failed
        · cases failed
        case h_2 req parse =>
          have conn := Server.conn_setConn_self { s.conn i with
            req := req, inBuf := (s.conn i).inBuf.drop n } there
          have keeps : KeepsMap i s (s.setConn i { s.conn i with
            req := req, inBuf := (s.conn i).inBuf.drop n }) := keeps_touch there rfl rfl
          have sited : Sited (s.setConn i { s.conn i with
              req := req, inBuf := (s.conn i).inBuf.drop n }) := by
            refine h.sited.congr rfl rfl fun j a => ?_
            by_cases same : j = i
            · subst same
              rw [conn]
              exact id
            · rw [Server.conn_setConn_ne s _ same]
              exact id
          generalize s.setConn i { s.conn i with
            req := req, inBuf := (s.conn i).inBuf.drop n } = t at failed conn keeps sited
          have housed : Housed t := h.shrink sited keeps.queues keeps.dataPath (live_keeps keeps)
            (fun a => (keeps.works a).path) fun a => (keeps.works a).destroyed
          obtain ⟨type, blocked⟩ := dispatch_error (keeps.conns ▸ there) housed failed
          rw [conn] at type blocked
          refine ⟨req.queue, ?_, blocked_keeps keeps blocked⟩
          have read : parsed s i (.readDone i env) = some req := by
            simp [parsed, reading, line, parse]
          rw [opened, read, Option.bind_some, if_pos type]
      case h_2 => cases failed
    case h_2 => cases failed
    case h_3 => cases failed
  | callback a node env =>
    have failed : s.callback a node env = .error .cantOpenJournal := failed
    unfold Server.callback at failed
    split at failed
    · cases failed
    case h_2 w due =>
      obtain ⟨mem, -⟩ := dueWaiter_mem due
      have pending := (awake.waits a w mem).2.pending
      have there : w.cb < s.conns.length := Server.conn_there (by simp [pending])
      dsimp only at failed
      split at failed
      case isTrue =>
        have there' : w.cb <
          (s.setObject a ((s.object a).waiterWakeup node).1).conns.length := there
        obtain ⟨absent, b, live, path⟩ := get_error there' failed
        refine ⟨(s.conn w.cb).req.queue, by simp [opened, due], absent, b, ?_, ?_⟩
        · refine live_setObject (fun some => ?_) live
          exact List.ne_nil_of_mem mem
        · have kept : ((s.setObject a ((s.object a).waiterWakeup node).1).object b).path =
            (s.object b).path :=
            object_setObject_field (q := ((s.object a).waiterWakeup node).1) Queue.path rfl b
          rw [kept] at path
          exact path
      case isFalse => cases failed

def Held (s : Server) (name : Bytes) (n : ℕ) : Prop :=
  ∃ a, s.live a = true ∧ (s.object a).destroyed = true ∧
    (s.object a).path = s.pathOf (numbered name n)

/-- No `get` or `set` makes a queue under the name that a deleted queue is held as. -/
def ClearOfHeld (s : Server) (event : ServerEvent) : Prop :=
  ∀ name, opened s event = some name → s.queues.lookup name = none →
    ∀ deleted n, Held s deleted n → name ≠ numbered deleted n

theorem blocked_held {name : Bytes} (h : Housed s) (blocked : Blocked s name) :
    ∃ deleted n, Held s deleted n ∧ name = numbered deleted n := by
  obtain ⟨absent, a, live, path⟩ := blocked
  by_cases registered : Registered s a
  · obtain ⟨other, found⟩ := registered
    obtain rfl := pathOf_injective ((h.home found).1.symm.trans path)
    rw [absent] at found
    cases found
  · obtain ⟨destroyed, deleted, n, moved⟩ := h.away live registered
    exact ⟨deleted, n, ⟨a, live, destroyed, moved⟩, pathOf_injective (path.symm.trans moved)⟩

structure Loaded (s : Server) : Prop extends s.Started where
  home : ∀ name a, s.queues.lookup name = some a → (s.object a).path = s.pathOf name

theorem housed_loaded (loaded : Loaded s) : Housed s := by
  have sited : Sited s := sited_started loaded.toStarted
  have blank : ∀ a, (s.object a).waiters = [] ∧ (s.object a).destroyed = false := by
    refine Server.object_all (P := fun q => q.waiters = [] ∧ q.destroyed = false)
      (fun q mem => ?_) ⟨rfl, rfl⟩
    obtain ⟨image, path, new⟩ := loaded.opened q mem
    obtain ⟨head, tail, chunks, rfl⟩ := QueueRecovery.new_blank new
    exact ⟨rfl, rfl⟩
  have registered : ∀ {a}, s.live a = true → Registered s a := by
    intro a live
    rcases live_iff.mp live with registered | ⟨j, isOpen⟩ | some
    · exact registered
    · rw [loaded.closed j] at isOpen
      rcases isOpen with wrong | wrong <;> cases wrong
    · exact absurd (blank a).1 some
  refine ⟨sited, fun {name a} found => ⟨loaded.home name a found, (blank a).2⟩,
    fun live free => absurd (registered live) free, fun {a b} one two same => ?_⟩
  obtain ⟨name, found⟩ := registered one
  obtain ⟨other, found'⟩ := registered two
  rw [loaded.home name a found, loaded.home other b found'] at same
  obtain rfl := pathOf_injective same
  exact Option.some.inj (found.symm.trans found')

theorem reachable_housed {start : Server} (loaded : Loaded start)
    (reach : Reachable Server.Step start s) : Awake none s ∧ Housed s :=
  reach.invariant (P := fun s => Awake none s ∧ Housed s)
    ⟨awake_started loaded.toStarted, housed_loaded loaded⟩
    fun t event t' h step => ⟨step_awake t event t' h.1 step, step_housed h.1 h.2 step⟩

/-- In every reachable state no two live queues are in one directory, and an event
that makes no queue under the name that a deleted queue is held as does not find a
directory in use. -/
theorem directories_apart {start : Server} (loaded : Loaded start)
    (reach : Reachable Server.Step start s) :
    (∀ a b, s.live a = true → s.live b = true → a ≠ b → (s.object a).path ≠ (s.object b).path) ∧
    ∀ event, ClearOfHeld s event → s.step event ≠ .error .cantOpenJournal := by
  obtain ⟨awake, housed⟩ := reachable_housed loaded reach
  refine ⟨fun a b one two ne same => ne (housed.apart one two same), fun event clear failed => ?_⟩
  obtain ⟨name, asked, blocked⟩ := step_error awake housed failed
  obtain ⟨deleted, n, held, same⟩ := blocked_held housed blocked
  exact clear name asked blocked.1 deleted n held same

theorem loaded_empty : Loaded (.empty 64 [47]) where
  toStarted := Server.started_empty 64 [47] (by decide)
  home name a found := by
    rw [Server.empty, Finmap.lookup_empty] at found
    cases found

def deleteHeld (name : String) : List ServerEvent :=
  let env : Env := ⟨fun _ => true, 0, 0, 0⟩
  [.accept, .recv 0 (ascii "get q/t=9\r\n"), .readDone 0 env,
    .accept, .recv 1 (ascii "delete q\r\n"), .readDone 1 env, .writeDone 1 env,
    .recv 1 (ascii "get " ++ ascii name ++ ascii "\r\n")]

theorem directories_apart_again : ∃ s, Reachable Server.Step (.empty 64 [47]) s ∧
    opened s (.readDone 1 ⟨fun _ => true, 0, 0, 0⟩) = some (ascii "q") ∧
    (∃ n, Held s (ascii "q") n) ∧
    s.step (.readDone 1 ⟨fun _ => true, 0, 0, 0⟩) ≠ .error .cantOpenJournal := by
  have facts : ((Server.empty 64 [47]).run (deleteHeld "q")).toOption.map (fun s =>
      (opened s (.readDone 1 ⟨fun _ => true, 0, 0, 0⟩), s.live 0, (s.object 0).destroyed,
        (s.object 0).path, s.pathOf (numbered (ascii "q") 0))) =
      some (some (ascii "q"), true, true, [47, 47, 113, 46, 48], [47, 47, 113, 46, 48]) := by
    decide
  cases run : (Server.empty 64 [47]).run (deleteHeld "q") with
  | error fault => simp [run, Except.toOption] at facts
  | ok s =>
    simp only [run, Except.toOption, Option.map_some, Option.some.injEq, Prod.mk.injEq] at facts
    obtain ⟨asked, live, destroyed, path, home⟩ := facts
    have reach : Reachable Server.Step (.empty 64 [47]) s := ⟨_, Server.runs_of_run run⟩
    refine ⟨s, reach, asked, ⟨0, 0, live, destroyed, by rw [path, home]⟩, ?_⟩
    apply (directories_apart loaded_empty reach).2
    intro name asked' absent deleted n held same
    obtain rfl := Option.some.inj (asked.symm.trans asked')
    -- a name without a dot has no number
    have dot : (46 : UInt8) ∈ ascii "q" := by
      rw [same]
      simp [numbered]
    revert dot
    decide

/-- While a deleted `q` is held as `q.0`, the queue `q.0` cannot be made. -/
theorem directories_collide : ∃ s, Reachable Server.Step (.empty 64 [47]) s ∧
    opened s (.readDone 1 ⟨fun _ => true, 0, 0, 0⟩) = some (ascii "q.0") ∧
    s.queues.lookup (ascii "q.0") = none ∧
    s.step (.readDone 1 ⟨fun _ => true, 0, 0, 0⟩) = .error .cantOpenJournal := by
  have facts : ((Server.empty 64 [47]).run (deleteHeld "q.0")).toOption.map (fun s =>
      (opened s (.readDone 1 ⟨fun _ => true, 0, 0, 0⟩), s.queues.lookup (ascii "q.0"),
        match s.step (.readDone 1 ⟨fun _ => true, 0, 0, 0⟩) with
        | .error fault => some fault
        | .ok _ => none)) =
      some (some (ascii "q.0"), none, some .cantOpenJournal) := by decide
  cases run : (Server.empty 64 [47]).run (deleteHeld "q.0") with
  | error fault => simp [run, Except.toOption] at facts
  | ok s =>
    simp only [run, Except.toOption, Option.map_some, Option.some.injEq, Prod.mk.injEq] at facts
    obtain ⟨asked, absent, failed⟩ := facts
    refine ⟨s, ⟨_, Server.runs_of_run run⟩, asked, absent, ?_⟩
    split at failed
    case h_1 fault result => rw [result, Option.some.inj failed]
    case h_2 => cases failed

end Darner.QueueDirectories
