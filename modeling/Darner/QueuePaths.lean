import Darner.RequestLanguage
import Darner.Server

/-! Where a queue name leads: the path that `queue_map` makes of it, and the directory
that the file system finds there. -/

namespace Darner

/-- `filesystem::path::operator/`: a separator in between, unless there is one. -/
def joinPath (path name : Bytes) : Bytes :=
  if path = [] ∨ path.getLast? = some 47 ∨ name.head? = some 47 then path ++ name
  else path ++ 47 :: name

abbrev Directory := List Bytes

namespace Directory

/-- One component of a path; the parent of the root is the root. -/
def enter (dir : Directory) (component : Bytes) : Directory :=
  if component = [] ∨ component = ascii "." then dir
  else if component = ascii ".." then dir.dropLast
  else dir ++ [component]

def walk (dir : Directory) (component : Bytes) : Bytes → Directory
  | [] => dir.enter component
  | b :: rest =>
    if b = 47 then walk (dir.enter component) [] rest else walk dir (component ++ [b]) rest

def resolve (working : Directory) (path : Bytes) : Directory :=
  walk (if path.head? = some 47 then [] else working) [] path

theorem walk_component {name : Bytes} (dir : Directory) (component : Bytes) (flat : 47 ∉ name) :
    dir.walk component name = dir.enter (component ++ name) := by
  induction name generalizing component with
  | nil => rw [walk, List.append_nil]
  | cons b name ih =>
    rw [List.mem_cons, not_or] at flat
    rw [walk, if_neg (Ne.symm flat.1), ih _ flat.2, List.append_assoc, List.singleton_append]

theorem walk_slash (dir : Directory) (component path rest : Bytes) :
    dir.walk component (path ++ 47 :: rest) = (dir.walk component path).walk [] rest := by
  induction path generalizing dir component with
  | nil => simp [walk]
  | cons b path ih =>
    rw [List.cons_append, walk, walk]
    split
    · exact ih _ _
    · exact ih _ _

theorem resolve_slash {path : Bytes} (working : Directory) (some : path ≠ []) (rest : Bytes) :
    working.resolve (path ++ 47 :: rest) = (working.resolve path).walk [] rest := by
  obtain ⟨first, path, rfl⟩ := List.exists_cons_of_ne_nil some
  rw [resolve, resolve, walk_slash]
  rfl

theorem resolve_joinPath {name : Bytes} (working : Directory) (path : Bytes) (flat : 47 ∉ name) :
    working.resolve (joinPath path name) = (working.resolve path).enter name := by
  have inner : name.head? ≠ some 47 := fun same => flat (List.mem_of_head? same)
  unfold joinPath
  rcases List.eq_nil_or_concat' path with rfl | ⟨front, last, rfl⟩
  · rw [if_pos (.inl rfl), List.nil_append, resolve, resolve, if_neg inner, walk_component _ _ flat]
    rfl
  · by_cases slash : last = 47
    · subst slash
      rw [if_pos (.inr (.inl (by simp))), List.append_assoc, List.singleton_append]
      cases front with
      | nil =>
        rw [List.nil_append, resolve, walk, if_pos rfl, walk_component _ _ flat]
        rfl
      | cons b front =>
        rw [resolve_slash _ (List.cons_ne_nil b front), walk_component _ _ flat,
          resolve_slash _ (List.cons_ne_nil b front)]
        rfl
    · have ne : front ++ [last] ≠ [] := by simp
      rw [if_neg (by simp [inner, slash]), resolve_slash _ ne, walk_component _ _ flat]
      rfl

theorem enter_ordinary {name : Bytes} (dir : Directory) (some : name ≠ [])
    (ordinary : name ≠ ascii "." ∧ name ≠ ascii "..") : dir.enter name = dir ++ [name] := by
  rw [enter, if_neg (not_or.mpr ⟨some, ordinary.1⟩), if_neg ordinary.2]

end Directory

namespace Request

def NamesQueue (req : Request) : Prop :=
  req.type = .destroy ∨ req.type = .flush ∨ req.type = .set ∨ req.type = .get

theorem isKey_queue {line : Bytes} {req : Request} (h : Request.parse line = some req)
    (names : req.NamesQueue) : IsKey req.queue := by
  obtain ⟨command, ending, -, -, denotes⟩ := parse_some.mp h
  cases denotes with
  | destroy key => exact key
  | flush key => exact key
  | set syncs key => exact key
  | get either key => exact key
  | _ => simp [NamesQueue] at names

theorem IsKey.flat {name : Bytes} (key : IsKey name) : 47 ∉ name :=
  fun mem => (key.2 47 mem).2 rfl

/-- The directory of the queue is a direct child of the data directory, and another
queue has another one. -/
def Confined (working : Directory) (dataPath : Bytes) (req : Request) : Prop :=
  (∃ child, working.resolve (joinPath dataPath req.queue) = working.resolve dataPath ++ [child]) ∧
  ∀ line req', Request.parse line = some req' → req'.NamesQueue → req'.queue ≠ req.queue →
    working.resolve (joinPath dataPath req'.queue) ≠ working.resolve (joinPath dataPath req.queue)

/-- A queue name leads to a directory of its own in the data directory, unless it is one
of the two that the file system gives a meaning. -/
theorem confined_iff (working : Directory) (dataPath : Bytes) {line : Bytes} {req : Request}
    (accepted : Request.parse line = some req) (names : req.NamesQueue) :
    req.Confined working dataPath ↔ req.queue ≠ ascii "." ∧ req.queue ≠ ascii ".." := by
  have key := isKey_queue accepted names
  unfold Confined
  rw [Directory.resolve_joinPath working dataPath key.flat]
  constructor
  · rintro ⟨⟨child, inside⟩, -⟩
    have length := congrArg List.length inside
    rw [List.length_append, List.length_singleton] at length
    refine ⟨fun dot => ?_, fun dots => ?_⟩
    · rw [Directory.enter, if_pos (.inr dot)] at length
      omega
    · have apart : ascii ".." ≠ [] ∧ ascii ".." ≠ ascii "." := by decide
      rw [dots, Directory.enter, if_neg (not_or.mpr apart), if_pos rfl, List.length_dropLast]
        at length
      omega
  · intro ordinary
    rw [Directory.enter_ordinary _ key.1 ordinary]
    refine ⟨⟨_, rfl⟩, fun line' req' accepted' names' other => ?_⟩
    have key' := isKey_queue accepted' names'
    rw [Directory.resolve_joinPath working dataPath key'.flat, Directory.enter]
    intro same
    split at same
    · have length := congrArg List.length same
      rw [List.length_append, List.length_singleton] at length
      omega
    · split at same
      · have length := congrArg List.length same
        rw [List.length_append, List.length_singleton, List.length_dropLast] at length
        omega
      · exact other (List.singleton_inj.mp (List.append_cancel_left same))

theorem confined_set_q : Request.Confined [ascii "srv"] (ascii "data")
    { type := .set, queue := ascii "q", numBytes := 1 } := by
  have accepted : Request.parse (ascii "set q 0 0 1\r\n") =
    some { type := .set, queue := ascii "q", numBytes := 1 } := by decide
  exact (confined_iff [ascii "srv"] (ascii "data") accepted (.inr (.inr (.inl rfl)))).mpr
    (by decide)

/-- A queue named `..` is the parent of the data directory. -/
theorem not_confined_dots : ¬∀ (working : Directory) (dataPath line : Bytes) (req : Request),
    Request.parse line = some req → req.NamesQueue → req.Confined working dataPath := by
  intro confined
  obtain ⟨⟨child, inside⟩, -⟩ := confined [ascii "srv"] (ascii "data") (ascii "get ..\r\n")
    { type := .get, queue := ascii ".." } (by decide) (.inr (.inr (.inr rfl)))
  have length := congrArg List.length inside
  rw [List.length_append, List.length_singleton] at length
  exact absurd length (by decide)

end Request

theorem Server.resolve_pathOf (s : Server) (working : Directory) {name : Bytes}
    (some : s.dataPath ≠ []) (flat : 47 ∉ name) :
    working.resolve (s.pathOf name) = working.resolve (joinPath s.dataPath name) := by
  rw [Server.pathOf, Directory.resolve_slash working some, Directory.walk_component _ _ flat,
    Directory.resolve_joinPath working s.dataPath flat]
  rfl

end Darner
