import Darner.Library.Framing
import Darner.SetProgress

/-! What a connection makes of the bytes that are sent on it. A handler reads a line up
to its newline and, after a `set`, a body chunk by chunk, and what it does not need yet
stays in `in_`. The requests and bodies that it takes are those of the plain split of
the whole byte sequence, however the sequence is cut into socket reads. Only a handler
that hangs up on its client leaves the rest of the sequence unread. -/

namespace Darner.RequestFraming
open LabelledRuns Framing ServerMoves ServerWaiters FetchDeeds FetchEvents ServerCalls SetProgress

inductive Frame where
  | request (req : Request)
  | body (bytes : Bytes)
  | parseError
  | badChunk
  | hangUp
deriving DecidableEq

/-- What comes next: a line, the body of a `set`, or nothing after an error. -/
inductive Mode where
  | line
  | body (size : ℕ)
  | done

def lineFrame (line : Bytes) : Frame × Mode :=
  match Request.parse line with
  | none => (.parseError, .done)
  | some req => (.request req, if req.type = .set then .body req.numBytes else .line)

def bodyFrame (bytes terminator : Bytes) : Frame × Mode :=
  if terminator = ascii "\r\n" then (.body bytes, .line) else (.badChunk, .done)

/-- A line up to and including its first newline, which is to be found within `capacity`
bytes, or a body and the two bytes after it. -/
def nextFrame (capacity : ℕ) : Framer UInt8 Mode Frame
  | .line, input =>
    (Server.lineLength (input.take capacity)).map fun n =>
      ((lineFrame (input.take n)).1, (lineFrame (input.take n)).2, n)
  | .body size, input =>
    if size + 2 ≤ input.length then
      let frame := bodyFrame (input.take size) ((input.drop size).take 2)
      some (frame.1, frame.2, size + 2)
    else none
  | .done, _ => none

def plain (capacity : ℕ) (bytes : Bytes) : List Frame :=
  split (nextFrame capacity) .line bytes ++ [.hangUp]

theorem lineLength_bounds {buf : Bytes} {n : ℕ} (line : Server.lineLength buf = some n) :
    0 < n ∧ n ≤ buf.length := by
  obtain ⟨m, found, rfl⟩ := Option.map_eq_some_iff.mp line
  obtain ⟨short, -⟩ := List.findIdx?_eq_some_iff_getElem.mp found
  omega

theorem lineLength_append {buf : Bytes} {n : ℕ} (rest : Bytes)
    (line : Server.lineLength buf = some n) : Server.lineLength (buf ++ rest) = some n := by
  obtain ⟨m, found, rfl⟩ := Option.map_eq_some_iff.mp line
  rw [Server.lineLength, List.findIdx?_append, found]
  rfl

theorem nextFrame_line {capacity n : ℕ} {input : Bytes}
    (line : Server.lineLength (input.take capacity) = some n) :
    nextFrame capacity .line input =
      some ((lineFrame (input.take n)).1, (lineFrame (input.take n)).2, n) := by
  rw [nextFrame, line, Option.map_some]

theorem nextFrame_body (capacity : ℕ) {size : ℕ} {input : Bytes} (enough : size + 2 ≤ input.length) :
    nextFrame capacity (.body size) input =
      some ((bodyFrame (input.take size) ((input.drop size).take 2)).1,
        (bodyFrame (input.take size) ((input.drop size).take 2)).2, size + 2) := by
  rw [nextFrame, if_pos enough]

theorem nextFrame_some {capacity n : ℕ} {mode mode' : Mode} {input : Bytes} {frame : Frame}
    (taken : nextFrame capacity mode input = some (frame, mode', n)) :
    (mode = .line ∧ Server.lineLength (input.take capacity) = some n) ∨
    ∃ size, mode = .body size ∧ n = size + 2 ∧ size + 2 ≤ input.length := by
  cases mode with
  | line =>
    obtain ⟨m, line, same⟩ := Option.map_eq_some_iff.mp taken
    obtain rfl : m = n := congrArg (·.2.2) same
    exact .inl ⟨rfl, line⟩
  | body size =>
    by_cases enough : size + 2 ≤ input.length
    · rw [nextFrame_body capacity enough] at taken
      exact .inr ⟨size, rfl, congrArg (·.2.2) (Option.some.inj taken).symm, enough⟩
    · rw [nextFrame, if_neg enough] at taken
      cases taken
  | done => cases taken

theorem lawful_nextFrame (capacity : ℕ) : Lawful (nextFrame capacity) where
  pos taken := by
    rcases nextFrame_some taken with ⟨-, line⟩ | ⟨size, -, rfl, -⟩
    · exact (lineLength_bounds line).1
    · exact Nat.succ_pos _
  le taken := by
    rcases nextFrame_some taken with ⟨-, line⟩ | ⟨size, -, rfl, enough⟩
    · exact (lineLength_bounds line).2.trans (List.length_take_le' _ _)
    · exact enough
  more {mode input out} rest taken := by
    obtain ⟨frame, mode', n⟩ := out
    rcases nextFrame_some taken with ⟨rfl, line⟩ | ⟨size, rfl, rfl, enough⟩
    · have short := (lineLength_bounds line).2.trans (List.length_take_le' _ _)
      have line' : Server.lineLength ((input ++ rest).take capacity) = some n := by
        rw [List.take_append]
        exact lineLength_append _ line
      rw [nextFrame_line line] at taken
      rw [nextFrame_line line', List.take_append_of_le_length short]
      exact taken
    · have enough' : size + 2 ≤ (input ++ rest).length := by
        rw [List.length_append]
        omega
      rw [nextFrame_body capacity enough] at taken
      rw [nextFrame_body capacity enough', List.take_append_of_le_length (by omega),
        List.drop_append_of_le_length (by omega),
        List.take_append_of_le_length (by rw [List.length_drop]; omega)]
      exact taken

/-! What a handler takes. -/

structure Trace where
  received : Bytes := []
  frames : List Frame := []
  front : Bytes := []
  eof : Bool := false
  /-- What was read ends the connection: end of file, a full buffer without a line, a line
  that is no request, or a body that is not followed by `\r\n`. -/
  ended : Bool := false

/-- A read is done: `parse_request` and `set_on_read_chunk` up to where they answer. -/
def Trace.take (chunkSize : ℕ) (h : Handler) (t : Trace) : Trace :=
  match h.pending with
  | .readUntil =>
    match Server.lineLength h.inBuf with
    | some n =>
      match Request.parse (h.inBuf.take n) with
      | some req => { t with frames := t.frames ++ [.request req] }
      | none => { t with frames := t.frames ++ [.parseError], ended := true }
    | none => if chunkSize + 2 ≤ h.inBuf.length then { t with ended := true } else t
  | .readChunk n =>
    if n = 0 ∨ chunkSize + 2 ≤ h.inBuf.length then
      let remaining := h.req.numBytes - h.pushStream.tell
      if remaining ≤ chunkSize then
        if (h.inBuf.drop remaining).take 2 ≠ ascii "\r\n" then
          { t with frames := t.frames ++ [.badChunk], front := [], ended := true }
        else
          { t with frames := t.frames ++ [.body (t.front ++ h.inBuf.take remaining)], front := [] }
      else { t with front := t.front ++ h.inBuf.take chunkSize }
    else t
  | _ => t

def Trace.hangUp (h h' : Handler) (t : Trace) : Trace :=
  if h.pending ≠ .closed ∧ h'.pending = .closed then { t with frames := t.frames ++ [.hangUp] }
  else t

def Trace.next (i : ℕ) (s : Server) (event : ServerEvent) (s' : Server) (t : Trace) : Trace :=
  let read : Trace :=
    match event with
    | .recv j _ =>
      if j = i then
        { t with received := t.received ++ (s'.conn i).inBuf.drop (s.conn i).inBuf.length }
      else t
    | .readDone j _ => if j = i then t.take s.chunkSize (s.conn i) else t
    | .readFailed j _ =>
      if j = i ∧ (s.conn i).pending ≠ .closed ∧ (s'.conn i).pending = .closed then
        { t with eof := true, ended := true }
      else t
    | _ => t
  read.hangUp (s.conn i) (s'.conn i)

def watch (i : ℕ) : Server × Trace → List ServerEvent → Except Fault (Server × Trace)
  | at_, [] => .ok at_
  | (s, t), event :: events => do
    let s' ← s.step event
    watch i (s', t.next i s event s') events

variable {s s' : Server} {i n chunkSize capacity : ℕ} {t : Trace} {h h' : Handler} {mode : Mode}
  {inBuf : Bytes} {frames : List Frame}

theorem hangUp_open (open_ : h'.pending ≠ .closed) : t.hangUp h h' = t :=
  if_neg fun closes => open_ closes.2

theorem hangUp_same : t.hangUp h h = t :=
  if_neg fun closes => closes.1 closes.2

theorem hangUp_closed (open_ : h.pending ≠ .closed) (closed : h'.pending = .closed) :
    t.hangUp h h' = { t with frames := t.frames ++ [.hangUp] } :=
  if_pos ⟨open_, closed⟩

/-- The frames taken so far, and those of the buffer and of all that is still to come,
are the frames of the whole. -/
structure FramesTaken (capacity : ℕ) (mode : Mode) (inBuf : Bytes) (t : Trace) : Prop where
  agrees : Agrees (nextFrame capacity) .line t.received t.frames mode (t.front ++ inBuf)
  room : inBuf.length ≤ capacity
  eof : t.eof = false
  ended : t.ended = false

def Settles (capacity : ℕ) (t : Trace) (frames : List Frame) : Prop :=
  ∀ more, (t.eof = true → more = []) → ∃ later,
    split (nextFrame capacity) .line (t.received ++ more) = frames ++ later ∧
      (t.ended = true → later = [])

inductive Stage (chunkSize : ℕ) (h : Handler) (t : Trace) : Prop where
  | line (free : Free h) (open_ : h.pending ≠ .closed) (front : t.front = [])
      (reading : FramesTaken (chunkSize + 2) .line h.inBuf t)
  | body {n : ℕ} (pending : h.pending = .readChunk n) (front : t.front.length = h.pushStream.tell)
      (reading : FramesTaken (chunkSize + 2) (.body h.req.numBytes) h.inBuf t)
  | dying (dying : Dying h) (settles : Settles (chunkSize + 2) t t.frames)
  | closed (closed : h.pending = .closed) (frames : List Frame)
      (same : t.frames = frames ++ [.hangUp]) (settles : Settles (chunkSize + 2) t frames)

theorem FramesTaken.settles (reading : FramesTaken capacity mode inBuf t) :
    Settles capacity t t.frames := by
  intro more _
  refine ⟨_, reading.agrees more, fun ended => ?_⟩
  rw [reading.ended] at ended
  cases ended

theorem FramesTaken.receive {data : Bytes} (reading : FramesTaken capacity mode inBuf t)
    (room : (inBuf ++ data).length ≤ capacity) :
    FramesTaken capacity mode (inBuf ++ data) { t with received := t.received ++ data } := by
  refine ⟨?_, room, reading.eof, reading.ended⟩
  have agrees := reading.agrees.receive data
  rw [List.append_assoc] at agrees
  exact agrees

theorem FramesTaken.line_taken (reading : FramesTaken capacity .line inBuf t) (front : t.front = [])
    (line : Server.lineLength inBuf = some n) :
    Agrees (nextFrame capacity) .line t.received (t.frames ++ [(lineFrame (inBuf.take n)).1])
      (lineFrame (inBuf.take n)).2 (t.front ++ inBuf.drop n) := by
  have agrees := reading.agrees
  rw [front, List.nil_append] at agrees ⊢
  refine agrees.take (lawful_nextFrame capacity) (nextFrame_line ?_)
  rw [List.take_of_length_le reading.room]
  exact line

theorem FramesTaken.body_taken {size rest : ℕ} (reading : FramesTaken capacity (.body size) inBuf t)
    (left : t.front.length + rest = size) (enough : rest + 2 ≤ inBuf.length) :
    Agrees (nextFrame capacity) .line t.received
      (t.frames ++ [(bodyFrame (t.front ++ inBuf.take rest) ((inBuf.drop rest).take 2)).1])
      (bodyFrame (t.front ++ inBuf.take rest) ((inBuf.drop rest).take 2)).2
      (inBuf.drop (rest + 2)) := by
  have long : size + 2 ≤ (t.front ++ inBuf).length := by
    rw [List.length_append]
    omega
  have taken := reading.agrees.take (lawful_nextFrame capacity) (nextFrame_body capacity long)
  subst left
  rwa [List.take_length_add_append, List.drop_length_add_append, Nat.add_assoc,
    List.drop_length_add_append] at taken

theorem settles_stuck {buf : Bytes}
    (agrees : Agrees (nextFrame capacity) .line t.received t.frames mode buf)
    (stuck : ∀ more, (t.eof = true → more = []) → nextFrame capacity mode (buf ++ more) = none) :
    Settles capacity t t.frames := by
  intro more last
  refine ⟨[], ?_, fun _ => rfl⟩
  rw [List.append_nil]
  exact agrees.stuck (lawful_nextFrame capacity) (stuck more last)

theorem stage_drop (settles : Settles (chunkSize + 2) t t.frames) (open_ : h.pending ≠ .closed)
    (closed : h'.pending = .closed) : Stage chunkSize h' (t.hangUp h h') := by
  rw [hangUp_closed open_ closed]
  exact .closed closed t.frames rfl settles

theorem stage_open (open_ : h'.pending ≠ .closed) (stage : Stage chunkSize h' t) :
    Stage chunkSize h' (t.hangUp h h') := by
  rw [hangUp_open open_]
  exact stage

theorem stage_dying (settles : Settles (chunkSize + 2) t t.frames) (dying : Dying h') :
    Stage chunkSize h' (t.hangUp h h') := by
  refine stage_open ?_ (.dying dying settles)
  obtain ⟨text, pending⟩ := dying
  simp [pending]

theorem stage_answered (open_ : h.pending ≠ .closed) (front : t.front = [])
    (reading : FramesTaken (chunkSize + 2) .line h.inBuf t) (answered : Answered h h') :
    Stage chunkSize h' (t.hangUp h h') := by
  rcases answered with rfl | ⟨stream, text, next, rfl⟩ | ⟨stream, address, node, rfl⟩
  · exact stage_drop reading.settles open_ rfl
  · cases next with
    | hangUp => exact stage_dying reading.settles ⟨text, rfl⟩
    | readRequest | getOnWriteChunk =>
      exact stage_open (by simp) (.line (by simp [Free]) (by simp) front reading)
  · exact stage_open (by simp) (.line (by simp [Free]) (by simp) front reading)

theorem take_request {req : Request} (pending : h.pending = .readUntil) (front : t.front = [])
    (reading : FramesTaken (chunkSize + 2) .line h.inBuf t)
    (line : Server.lineLength h.inBuf = some n) (parse : Request.parse (h.inBuf.take n) = some req) :
    (t.take chunkSize h).front = [] ∧
    FramesTaken (chunkSize + 2) (if req.type = .set then .body req.numBytes else .line)
      (h.inBuf.drop n) (t.take chunkSize h) := by
  have taken := reading.line_taken front line
  have room := reading.room
  simp only [Trace.take, pending, line, parse]
  refine ⟨front, ?_, ?_, reading.eof, reading.ended⟩
  · simpa only [lineFrame, parse] using taken
  · rw [List.length_drop]
    omega

theorem take_parseError (pending : h.pending = .readUntil) (front : t.front = [])
    (reading : FramesTaken (chunkSize + 2) .line h.inBuf t)
    (line : Server.lineLength h.inBuf = some n) (parse : Request.parse (h.inBuf.take n) = none) :
    Settles (chunkSize + 2) (t.take chunkSize h) (t.take chunkSize h).frames := by
  have taken := reading.line_taken front line
  simp only [lineFrame, parse] at taken
  simp only [Trace.take, pending, line, parse]
  exact settles_stuck taken fun _ _ => rfl

theorem take_noLine (pending : h.pending = .readUntil) (front : t.front = [])
    (reading : FramesTaken (chunkSize + 2) .line h.inBuf t) (line : Server.lineLength h.inBuf = none)
    (full : chunkSize + 2 ≤ h.inBuf.length) :
    Settles (chunkSize + 2) (t.take chunkSize h) (t.take chunkSize h).frames := by
  have agrees := reading.agrees
  rw [front, List.nil_append] at agrees
  simp only [Trace.take, pending, line, if_pos full]
  refine settles_stuck agrees fun more _ => ?_
  rw [nextFrame, List.take_append_of_le_length full, List.take_of_length_le reading.room, line]
  rfl

section chunk
variable (pending : h.pending = .readChunk n) (enough : n = 0 ∨ chunkSize + 2 ≤ h.inBuf.length)
  (front : t.front.length = h.pushStream.tell)
  (buffered : required chunkSize h ≤ h.inBuf.length)
  (reading : FramesTaken (chunkSize + 2) (.body h.req.numBytes) h.inBuf t)
include pending enough front buffered reading

theorem take_more (large : chunkSize < h.req.numBytes - h.pushStream.tell) :
    (t.take chunkSize h).front.length = h.pushStream.tell + chunkSize ∧
    FramesTaken (chunkSize + 2) (.body h.req.numBytes) (h.inBuf.drop chunkSize)
      (t.take chunkSize h) := by
  have room := reading.room
  simp only [required, if_pos large] at buffered
  simp only [Trace.take, pending, if_pos enough, if_neg (Nat.not_le.mpr large)]
  refine ⟨?_, ?_, ?_, reading.eof, reading.ended⟩
  · rw [List.length_append, List.length_take, front]
    omega
  · -- the bytes move from the buffer to the front of the body
    have agrees := reading.agrees
    rwa [← List.take_append_drop chunkSize h.inBuf, ← List.append_assoc] at agrees
  · rw [List.length_drop]
    omega

variable (told : h.pushStream.tell ≤ h.req.numBytes)
include told

theorem take_badChunk (last : h.req.numBytes - h.pushStream.tell ≤ chunkSize)
    (ending : (h.inBuf.drop (h.req.numBytes - h.pushStream.tell)).take 2 ≠ ascii "\r\n") :
    Settles (chunkSize + 2) (t.take chunkSize h) (t.take chunkSize h).frames := by
  simp only [required, if_neg (Nat.not_lt.mpr last)] at buffered
  have taken := reading.body_taken (by omega) buffered
  simp only [bodyFrame, if_neg ending] at taken
  simp only [Trace.take, pending, if_pos enough, if_pos last, if_pos ending]
  exact settles_stuck taken fun _ _ => rfl

theorem take_body (last : h.req.numBytes - h.pushStream.tell ≤ chunkSize)
    (ending : (h.inBuf.drop (h.req.numBytes - h.pushStream.tell)).take 2 = ascii "\r\n") :
    (t.take chunkSize h).front = [] ∧
    FramesTaken (chunkSize + 2) .line (h.inBuf.drop (h.req.numBytes - h.pushStream.tell + 2))
      (t.take chunkSize h) := by
  have room := reading.room
  simp only [required, if_neg (Nat.not_lt.mpr last)] at buffered
  have taken := reading.body_taken (by omega) buffered
  simp only [bodyFrame, if_pos ending] at taken
  simp only [Trace.take, pending, if_pos enough, if_pos last, if_neg (not_not.mpr ending)]
  refine ⟨trivial, taken, ?_, reading.eof, reading.ended⟩
  rw [List.length_drop]
  omega

end chunk

/-! The events. -/

theorem hangUp_pending {k : Handler} (same : k.pending = h.pending) :
    t.hangUp k h' = t.hangUp h h' := by
  rw [Trace.hangUp, Trace.hangUp, same]

theorem answered_dispatch {env : Env} (there : i < s.conns.length)
    (type : (s.conn i).req.type ≠ .set) (run : s.dispatch i env = .ok s') :
    Answered (s.conn i) (s'.conn i) := by
  have erased : ∀ {recreate msg u}, s.eraseQueue (s.conn i).req.queue recreate = .ok u →
      Answered (s.conn i) ((u.end_ i msg).conn i) := by
    intro recreate msg u erase
    have conns : u.conns = s.conns := by
      rcases Server.eraseQueue_ok erase with rfl | ⟨a, -, rfl | rfl⟩ <;> rfl
    have same : u.conn i = s.conn i := Server.conn_congr conns i
    rw [← same]
    exact answered_reply (conns ▸ there) _ _
  unfold Server.dispatch at run
  split at run
  case h_1 =>
    rw [← Except.ok.inj run]
    exact answered_drop there
  case h_2 =>
    rw [← Except.ok.inj run]
    exact answered_reply there _ _
  case h_3 =>
    rw [← Except.ok.inj run]
    exact answered_reply there _ _
  case h_4 =>
    obtain ⟨u, erase, rfl⟩ := Server.destroy_ok run
    exact erased erase
  case h_5 =>
    obtain ⟨u, erase, rfl⟩ := Server.flush_ok run
    exact erased erase
  case h_6 =>
    unfold Server.flushAll at run
    split at run
    · rw [← Except.ok.inj run]
      exact answered_reply there _ _
    · cases run
  case h_7 set => exact absurd set type
  case h_8 =>
    have there' : i < s.countGet.conns.length := there
    have answered := answered_get there' run
    exact answered

theorem tell_open {stream : OQStream} {address count : ℕ} {q : Queue} {sync : Bool}
    (closed : stream.queue = none) : (stream.open_ address q count sync).2.1.tell = 0 := by
  simp only [OQStream.open_, closed, Option.isSome_none, Bool.false_eq_true, if_false]
  split <;> rfl

theorem conn_set (there : i < s.conns.length) (run : s.set i = .ok s') :
    ∃ stream n, s'.conn i = { s.conn i with pushStream := stream, pending := .readChunk n } ∧
      stream.tell = 0 := by
  obtain ⟨a, u, v, found, opened, rfl⟩ := Server.set_ok run
  obtain ⟨-, conns, -⟩ := calm_queueAt i found
  have same : u.conn i = s.conn i := Server.conn_congr conns i
  have there' : i < u.conns.length := conns ▸ there
  obtain ⟨closed, rfl⟩ := pushOpen_ok opened
  rw [conn_readNextChunk (lt_of_lt_of_eq there' List.length_set.symm),
    Server.conn_setObject_setConn a _ _ there', ← same]
  exact ⟨_, _, rfl, tell_open closed⟩

theorem stage_dispatch {env : Env} (there : i < s.conns.length)
    (open_ : (s.conn i).pending ≠ .closed) (front : t.front = [])
    (reading : FramesTaken (s.chunkSize + 2)
      (if (s.conn i).req.type = .set then .body (s.conn i).req.numBytes else .line)
      (s.conn i).inBuf t)
    (run : s.dispatch i env = .ok s') :
    Stage s.chunkSize (s'.conn i) (t.hangUp (s.conn i) (s'.conn i)) := by
  by_cases type : (s.conn i).req.type = .set
  · rw [if_pos type] at reading
    have run : s.countSet.set i = .ok s' := by rwa [Server.dispatch, type] at run
    have there' : i < s.countSet.conns.length := there
    obtain ⟨stream, n, conn, tell⟩ := conn_set there' run
    rw [conn]
    refine stage_open (by simp) (.body rfl ?_ reading)
    rw [front]
    exact tell.symm
  · rw [if_neg type] at reading
    exact stage_answered open_ front reading (answered_dispatch there type run)

theorem stage_parseRequest {env : Env} (pending : (s.conn i).pending = .readUntil)
    (front : t.front = []) (reading : FramesTaken (s.chunkSize + 2) .line (s.conn i).inBuf t)
    (line : Server.lineLength (s.conn i).inBuf = some n)
    (run : s.parseRequest i n env = .ok s') :
    Stage s.chunkSize (s'.conn i)
      ((t.take s.chunkSize (s.conn i)).hangUp (s.conn i) (s'.conn i)) := by
  have there : i < s.conns.length := Server.conn_there (by simp [pending])
  unfold Server.parseRequest at run
  dsimp only at run
  split at run
  case h_1 parse =>
    rw [← Except.ok.inj run]
    exact stage_dying (take_parseError pending front reading line parse) (dying_reply there _)
  case h_2 req parse =>
    obtain ⟨front', reading'⟩ := take_request pending front reading line parse
    have conn := Server.conn_setConn_self
      { s.conn i with req := req, inBuf := (s.conn i).inBuf.drop n } there
    have there' : i < (s.setConn i
      { s.conn i with req := req, inBuf := (s.conn i).inBuf.drop n }).conns.length :=
      lt_of_lt_of_eq there List.length_set.symm
    have stage := stage_dispatch there' (by rw [conn]; simp [pending]) front'
      (by rw [conn]; exact reading') run
    rwa [hangUp_pending (by rw [conn])] at stage

theorem stage_setOnReadChunk {env : Env} (there : i < s.conns.length)
    (made : ∀ a, (s.conn i).pushStream.queue = some a → a < s.objects.length)
    (receiving : Receiving s.chunkSize (s.conn i) n)
    (pending : (s.conn i).pending = .readChunk n)
    (enough : n = 0 ∨ s.capacity ≤ (s.conn i).inBuf.length)
    (front : t.front.length = (s.conn i).pushStream.tell)
    (reading : FramesTaken (s.chunkSize + 2) (.body (s.conn i).req.numBytes) (s.conn i).inBuf t) :
    Stage s.chunkSize ((s.setOnReadChunk i env).conn i)
      ((t.take s.chunkSize (s.conn i)).hangUp (s.conn i) ((s.setOnReadChunk i env).conn i)) := by
  have told := receiving.filling.told_le
  have buffered := receiving.buffered enough
  have took : Took i env s (s.setOnReadChunk i env) :=
    setOnReadChunk_took there made receiving enough
  cases took with
  | failed conn =>
    -- the chunk is bad, or the journal refuses it
    refine stage_dying ?_ ⟨_, by rw [conn]⟩
    by_cases last : (s.conn i).req.numBytes - (s.conn i).pushStream.tell ≤ s.chunkSize
    · by_cases ending : ((s.conn i).inBuf.drop
          ((s.conn i).req.numBytes - (s.conn i).pushStream.tell)).take 2 = ascii "\r\n"
      · exact (take_body pending enough front buffered reading told last ending).2.settles
      · exact take_badChunk pending enough front buffered reading told last ending
    · exact (take_more pending enough front buffered reading (Nat.lt_of_not_le last)).2.settles
  | more conn large same tell receiving' =>
    obtain ⟨front', reading'⟩ := take_more pending enough front buffered reading large
    rw [conn]
    exact stage_open (by simp) (.body rfl (front'.trans tell.symm) reading')
  | stored isOpen conn last ending tell stop published =>
    obtain ⟨front', reading'⟩ := take_body pending enough front buffered reading told last ending
    rw [conn]
    exact stage_open (by simp) (.line (by simp [Free]) (by simp) front' reading')

theorem Stage.at_line (stage : Stage chunkSize h t) (free : Free h) (open_ : h.pending ≠ .closed) :
    t.front = [] ∧ FramesTaken (chunkSize + 2) .line h.inBuf t := by
  cases stage with
  | line free open_ front reading => exact ⟨front, reading⟩
  | body pending => exact absurd pending (free.2 _)
  | dying dying =>
    obtain ⟨text, writes⟩ := dying
    exact absurd writes (free.1 text)
  | closed closed => exact absurd closed open_

theorem Stage.at_body (stage : Stage chunkSize h t) (pending : h.pending = .readChunk n) :
    t.front.length = h.pushStream.tell ∧
      FramesTaken (chunkSize + 2) (.body h.req.numBytes) h.inBuf t := by
  cases stage with
  | line free => exact absurd pending (free.2 n)
  | body pending front reading => exact ⟨front, reading⟩
  | dying dying =>
    obtain ⟨text, writes⟩ := dying
    rw [writes] at pending
    cases pending
  | closed closed =>
    rw [closed] at pending
    cases pending

theorem Stage.settles (stage : Stage chunkSize h t) (open_ : h.pending ≠ .closed) :
    Settles (chunkSize + 2) t t.frames := by
  cases stage with
  | line free open_ front reading => exact reading.settles
  | body pending front reading => exact reading.settles
  | dying dying settles => exact settles
  | closed closed => exact absurd closed open_

theorem Stage.at_closed (stage : Stage chunkSize h t) (closed : h.pending = .closed) :
    ∃ frames, t.frames = frames ++ [.hangUp] ∧ Settles (chunkSize + 2) t frames := by
  cases stage with
  | line free open_ => exact absurd closed open_
  | body pending =>
    rw [pending] at closed
    cases closed
  | dying dying =>
    obtain ⟨text, writes⟩ := dying
    rw [writes] at closed
    cases closed
  | closed _ frames same settles => exact ⟨frames, same, settles⟩

theorem take_idle (line : h.pending ≠ .readUntil) (chunk : ∀ n, h.pending ≠ .readChunk n) :
    t.take chunkSize h = t := by
  unfold Trace.take
  split
  case h_1 pending => exact absurd pending line
  case h_2 n pending => exact absurd pending (chunk n)
  case h_3 => rfl

theorem stage_recv {data : Bytes} (stage : Stage s.chunkSize (s.conn i) t) :
    Stage s.chunkSize ((s.recv i data).conn i) (t.next i s (.recv i data) (s.recv i data)) := by
  rcases recv_cases s i data with same | ⟨room, ⟨pending, -, same⟩ | ⟨n, -, pending, same⟩⟩
  · have still : t.next i s (.recv i data) s = t := by simp [Trace.next, hangUp_same]
    rw [same, still]
    exact stage
  · have there : i < s.conns.length := Server.conn_there (by simp [pending])
    have free : Free (s.conn i) := by simp [Free, pending]
    obtain ⟨front, reading⟩ := stage.at_line free (by simp [pending])
    rw [same]
    simp only [Trace.next, if_true]
    rw [Server.conn_setConn_self _ there, List.drop_left]
    rw [← List.length_append] at room
    exact stage_open (by simp [pending])
      (.line (free_pending rfl free) (by simp [pending]) front (reading.receive room))
  · have there : i < s.conns.length := Server.conn_there (by simp [pending])
    obtain ⟨front, reading⟩ := stage.at_body pending
    rw [same]
    simp only [Trace.next, if_true]
    rw [Server.conn_setConn_self _ there, List.drop_left]
    rw [← List.length_append] at room
    exact stage_open (by simp) (.body rfl front (reading.receive room))

theorem stage_readDone {env : Env} (sited : Sited s) (receives : AllReceiving s)
    (stage : Stage s.chunkSize (s.conn i) t) (run : s.readDone i env = .ok s') :
    Stage s.chunkSize (s'.conn i) (t.next i s (.readDone i env) s') := by
  simp only [Trace.next, if_true]
  unfold Server.readDone at run
  dsimp only at run
  split at run
  case h_1 pending =>
    have there : i < s.conns.length := Server.conn_there (by simp [pending])
    obtain ⟨front, reading⟩ := stage.at_line (by simp [Free, pending]) (by simp [pending])
    split at run
    case h_1 n line => exact stage_parseRequest pending front reading line run
    case h_2 line =>
      rw [← Except.ok.inj run]
      split
      case isTrue full =>
        exact stage_drop (take_noLine pending front reading line full) (by simp [pending])
          (by rw [conn_drop there])
      case isFalse more =>
        have still : t.take s.chunkSize (s.conn i) = t := by
          simp only [Trace.take, pending, line]
          exact if_neg more
        rw [still, hangUp_same]
        exact stage
  case h_2 n pending =>
    have there : i < s.conns.length := Server.conn_there (by simp [pending])
    obtain ⟨front, reading⟩ := stage.at_body pending
    rw [← Except.ok.inj run]
    split
    case isTrue enough =>
      exact stage_setOnReadChunk there (fun a isOpen => sited.held i a (.inr isOpen))
        (receives.reading i n pending) pending enough front reading
    case isFalse more =>
      have still : t.take s.chunkSize (s.conn i) = t := by
        simp only [Trace.take, pending]
        exact if_neg more
      rw [still, hangUp_same]
      exact stage
  case h_3 line chunk =>
    rw [← Except.ok.inj run, take_idle line chunk, hangUp_same]
    exact stage

theorem stage_eof {env : Env} (there : i < s.conns.length) (open_ : (s.conn i).pending ≠ .closed)
    (settles : Settles (s.chunkSize + 2) { t with eof := true, ended := true } t.frames) :
    Stage s.chunkSize ((s.drop i (env.io 4)).conn i)
      (t.next i s (.readFailed i env) (s.drop i (env.io 4))) := by
  have closed : ((s.drop i (env.io 4)).conn i).pending = .closed := by rw [conn_drop there]
  have ends : t.next i s (.readFailed i env) (s.drop i (env.io 4)) =
      ({ t with eof := true, ended := true } : Trace).hangUp (s.conn i)
        ((s.drop i (env.io 4)).conn i) := by
    simp only [Trace.next]
    rw [if_pos ⟨trivial, open_, closed⟩]
  rw [ends]
  exact stage_drop settles open_ closed

theorem stage_readFailed {env : Env} (receives : AllReceiving s)
    (stage : Stage s.chunkSize (s.conn i) t) :
    Stage s.chunkSize ((s.readFailed i env).conn i)
      (t.next i s (.readFailed i env) (s.readFailed i env)) := by
  have still : t.next i s (.readFailed i env) s = t := by simp [Trace.next, hangUp_same]
  unfold Server.readFailed
  dsimp only
  split
  case h_1 pending =>
    split
    case isTrue line =>
      obtain ⟨front, reading⟩ := stage.at_line (by simp [Free, pending]) (by simp [pending])
      have agrees := reading.agrees
      rw [front, List.nil_append] at agrees
      refine stage_eof (Server.conn_there (by simp [pending])) (by simp [pending]) ?_
      refine settles_stuck (t := { t with eof := true, ended := true }) agrees fun more last => ?_
      rw [last rfl, List.append_nil, nextFrame, List.take_of_length_le reading.room, line]
      rfl
    case isFalse =>
      rw [still]
      exact stage
  case h_2 n pending =>
    split
    case isTrue some =>
      obtain ⟨front, reading⟩ := stage.at_body pending
      refine stage_eof (Server.conn_there (by simp [pending])) (by simp [pending]) ?_
      refine settles_stuck (t := { t with eof := true, ended := true }) reading.agrees
        fun more last => ?_
      -- a chunk that is not there yet is not all of the body
      obtain ⟨-, filling, missing⟩ := receives.reading i n pending
      have told := filling.told_le
      unfold required at missing
      dsimp only at missing
      rw [last rfl, List.append_nil, nextFrame, if_neg]
      rw [List.length_append, front]
      split at missing <;> omega
    case isFalse =>
      rw [still]
      exact stage
  case h_3 =>
    rw [still]
    exact stage

theorem stage_writeDone {env : Env} (stage : Stage s.chunkSize (s.conn i) t) :
    Stage s.chunkSize ((s.writeDone i env).conn i)
      (t.next i s (.writeDone i env) (s.writeDone i env)) := by
  change Stage _ _ (t.hangUp (s.conn i) ((s.writeDone i env).conn i))
  unfold Server.writeDone
  split
  case h_1 pending =>
    have there : i < s.conns.length := Server.conn_there (by simp [pending])
    obtain ⟨front, reading⟩ := stage.at_line (by simp [Free, pending]) (by simp [pending])
    have conn : (s.setPending i .readUntil).conn i = { s.conn i with pending := .readUntil } :=
      Server.conn_setConn_self _ there
    rw [conn]
    exact stage_open (by simp) (.line (by simp [Free]) (by simp) front reading)
  case h_2 pending =>
    have there : i < s.conns.length := Server.conn_there (by simp [pending])
    obtain ⟨front, reading⟩ := stage.at_line (by simp [Free, pending]) (by simp [pending])
    exact stage_answered (by simp [pending]) front reading (answered_getOnWriteChunk there env)
  case h_3 pending =>
    have there : i < s.conns.length := Server.conn_there (by simp [pending])
    have open_ : (s.conn i).pending ≠ .closed := by simp [pending]
    exact stage_drop (stage.settles open_) open_ (by rw [conn_drop there])
  case h_4 =>
    rw [hangUp_same]
    exact stage

theorem stage_writeFailed {env : Env} (stage : Stage s.chunkSize (s.conn i) t) :
    Stage s.chunkSize ((s.writeFailed i env).conn i)
      (t.next i s (.writeFailed i env) (s.writeFailed i env)) := by
  change Stage _ _ (t.hangUp (s.conn i) ((s.writeFailed i env).conn i))
  unfold Server.writeFailed
  split
  case h_1 pending =>
    have there : i < s.conns.length := Server.conn_there (by simp [pending])
    have open_ : (s.conn i).pending ≠ .closed := by simp [pending]
    exact stage_drop (stage.settles open_) open_ (by rw [conn_drop there])
  case h_2 =>
    rw [hangUp_same]
    exact stage

theorem stage_callback {address node : ℕ} {env : Env} {w : Waiter} (awake : Awake none s)
    (due : s.dueWaiter address node = some w) (stage : Stage s.chunkSize (s.conn w.cb) t)
    (run : s.callback address node env = .ok s') :
    Stage s.chunkSize (s'.conn w.cb) (t.next w.cb s (.callback address node env) s') := by
  change Stage _ _ (t.hangUp (s.conn w.cb) (s'.conn w.cb))
  obtain ⟨mem, -⟩ := dueWaiter_mem due
  have pending := (awake.waits address w mem).2.pending
  have open_ : (s.conn w.cb).pending ≠ .closed := by simp [pending]
  obtain ⟨front, reading⟩ := stage.at_line (by simp [Free, pending]) open_
  have there : w.cb <
    (s.setObject address ((s.object address).waiterWakeup node).1).conns.length :=
    Server.conn_there (s := s) open_
  refine stage_answered open_ front reading ?_
  simp only [Server.callback, due] at run
  split at run
  · have answered := answered_get there run
    exact answered
  · rw [← Except.ok.inj run]
    have answered := answered_reply there (ascii "END\r\n") .readRequest
    exact answered

theorem next_elsewhere {event : ServerEvent} (ne : serving s event ≠ some i)
    (same : s'.conn i = s.conn i) : t.next i s event s' = t := by
  have other : ∀ j, serving s event = some j → j ≠ i := by
    rintro j serves rfl
    exact ne serves
  cases event with
  | recv j data => simp only [Trace.next, if_neg (other j rfl), same, hangUp_same]
  | readDone j env => simp only [Trace.next, if_neg (other j rfl), same, hangUp_same]
  | readFailed j env => simp [Trace.next, other j rfl, same, hangUp_same]
  | _ => simp only [Trace.next, same, hangUp_same]

theorem step_stage {event : ServerEvent} (awake : Awake none s) (sited : Sited s)
    (receives : AllReceiving s) (there : i < s.conns.length)
    (stage : Stage s.chunkSize (s.conn i) t) (run : s.Step event s') :
    Stage s.chunkSize (s'.conn i) (t.next i s event s') := by
  by_cases mine : serving s event = some i
  case neg =>
    have same := step_others awake run there mine
    rw [next_elsewhere mine same, same]
    exact stage
  cases event with
  | accept => cases mine
  | expire a node => cases mine
  | recv j data =>
    obtain rfl := Option.some.inj mine
    rw [← Except.ok.inj run]
    exact stage_recv stage
  | readDone j env =>
    obtain rfl := Option.some.inj mine
    exact stage_readDone sited receives stage run
  | readFailed j env =>
    obtain rfl := Option.some.inj mine
    rw [← Except.ok.inj run]
    exact stage_readFailed receives stage
  | writeDone j env =>
    obtain rfl := Option.some.inj mine
    rw [← Except.ok.inj run]
    exact stage_writeDone stage
  | writeFailed j env =>
    obtain rfl := Option.some.inj mine
    rw [← Except.ok.inj run]
    exact stage_writeFailed stage
  | callback address node env =>
    obtain ⟨w, due, rfl⟩ := Option.map_eq_some_iff.mp mine
    exact stage_callback awake due stage run

structure Observed (i : ℕ) (s : Server) (t : Trace) : Prop where
  awake : Awake none s
  sited : Sited s
  receives : AllReceiving s
  stage : i < s.conns.length → Stage s.chunkSize (s.conn i) t
  blank : s.conns.length ≤ i → t = {}

theorem next_blank {event : ServerEvent} (beyond : s.conns.length ≤ i)
    (inBuf : (s'.conn i).inBuf = []) : t.next i s event s' = t := by
  have closed := Server.conn_beyond beyond
  have still : ∀ u : Trace, u.hangUp { pending := .closed } (s'.conn i) = u :=
    fun u => if_neg fun closes => closes.1 rfl
  cases event with
  | recv j data => simp [Trace.next, closed, still, inBuf]
  | readDone j env => simp [Trace.next, closed, still, Trace.take]
  | _ => simp [Trace.next, closed, still]

theorem step_watched {event : ServerEvent} (h : Observed i s t) (run : s.Step event s') :
    Observed i s' (t.next i s event s') where
  awake := step_awake s event s' h.awake run
  sited := step_sited h.awake h.sited run
  receives := step_receives h.awake h.sited h.receives run
  stage there := by
    rw [step_chunkSize h.awake run]
    by_cases old : i < s.conns.length
    · exact step_stage h.awake h.sited h.receives old (h.stage old) run
    · rcases step_conns h.awake run with same | ⟨one, new⟩
      · omega
      · obtain rfl : i = s.conns.length := by omega
        rw [next_blank (le_refl _) (by rw [new]), h.blank (le_refl _), new]
        exact .line (by simp [Free]) (by simp) rfl ⟨.init _ _, Nat.zero_le _, rfl, rfl⟩
  blank beyond := by
    have old : s.conns.length ≤ i := by
      rcases step_conns h.awake run with same | ⟨one, -⟩ <;> omega
    rw [next_blank old (by rw [Server.conn_beyond beyond]), h.blank old]

theorem watch_watched {events : List ServerEvent} (h : Observed i s t)
    {t' : Trace} (run : watch i (s, t) events = .ok (s', t')) : Observed i s' t' := by
  induction events generalizing s t with
  | nil =>
    obtain ⟨rfl, rfl⟩ := Prod.mk.inj (Except.ok.inj run)
    exact h
  | cons event events ih =>
    obtain ⟨u, first, rest⟩ := bind_ok run
    exact ih (step_watched h first) rest

theorem watched_started (started : s.Started) : Observed i s {} where
  awake := awake_started started
  sited := sited_started started
  receives := receives_started started
  stage there := by
    rw [started.conns] at there
    exact absurd there (Nat.not_lt_zero _)
  blank _ := rfl

/-! What is read is the plain split. -/

structure Hungry (i : ℕ) (s : Server) (t : Trace) : Prop where
  byte : ∀ b, (t.next i s (.recv i [b]) (s.recv i [b])).received = t.received ++ [b]
  eof : ∀ env, ((s.readFailed i env).conn i).pending = .closed

def Advances (t t' : Trace) : Prop :=
  t.frames.length < t'.frames.length ∨ t.front.length < t'.front.length

/-- The bytes that may have been sent: those received, and after the end of file no more. -/
def MaySend (t : Trace) (sent : Bytes) : Prop :=
  ∃ more, sent = t.received ++ more ∧ (t.eof = true → more = [])

structure Framed (i : ℕ) (s : Server) (t : Trace) : Prop where
  running : (s.conn i).pending ≠ .closed → ∀ sent, MaySend t sent → ∃ later,
    plain s.capacity sent = t.frames ++ later
  finished : (s.conn i).pending = .closed → t.ended = true →
    ∀ sent, MaySend t sent → t.frames = plain s.capacity sent
  /-- The handler hung up on its client: the rest of the sequence is left unread. -/
  refused : i < s.conns.length → (s.conn i).pending = .closed → t.ended = false →
    ∃ frames, t.frames = frames ++ [.hangUp] ∧
      ∀ sent, MaySend t sent → ∃ later, plain s.capacity sent = frames ++ later
  alert : ((s.conn i).pending = .readUntil ∨ ∃ n, (s.conn i).pending = .readChunk n) →
    Hungry i s t ∨
    ∀ env s', s.Step (.readDone i env) s' → Advances t (t.next i s (.readDone i env) s')

theorem Settles.plain (settles : Settles capacity t frames) {sent : Bytes} (all : MaySend t sent) :
    ∃ later, plain capacity sent = frames ++ later ∧ (t.ended = true → later = [.hangUp]) := by
  obtain ⟨more, rfl, last⟩ := all
  obtain ⟨later, same, none⟩ := settles more last
  refine ⟨later ++ [.hangUp], ?_, fun ended => ?_⟩
  · rw [RequestFraming.plain, same, List.append_assoc]
  · rw [none ended, List.nil_append]

theorem received_hangUp : (t.hangUp h h').received = t.received := by
  unfold Trace.hangUp
  split <;> rfl

theorem advances_hangUp {t' : Trace} (advances : Advances t t') : Advances t (t'.hangUp h h') := by
  unfold Trace.hangUp
  split
  · rcases advances with frames | front
    · left
      rw [List.length_append]
      exact Nat.lt_add_right _ frames
    · exact .inr front
  · exact advances

theorem hungry_line (pending : (s.conn i).pending = .readUntil)
    (line : Server.lineLength (s.conn i).inBuf = none) (room : (s.conn i).inBuf.length < s.capacity) :
    Hungry i s t := by
  have there : i < s.conns.length := Server.conn_there (by simp [pending])
  refine ⟨fun b => ?_, fun env => ?_⟩
  · have recv : s.recv i [b] = s.setConn i { s.conn i with inBuf := (s.conn i).inBuf ++ [b] } := by
      have fits : (s.conn i).inBuf.length + [b].length ≤ s.capacity := room
      simp only [Server.recv, if_pos fits, pending, line, if_true]
    rw [recv]
    simp only [Trace.next, if_true]
    rw [received_hangUp, Server.conn_setConn_self _ there, List.drop_left]
  · simp only [Server.readFailed, pending, if_pos line]
    rw [conn_drop there]

theorem hungry_chunk (pending : (s.conn i).pending = .readChunk n) (missing : 0 < n)
    (room : (s.conn i).inBuf.length < s.capacity) : Hungry i s t := by
  have there : i < s.conns.length := Server.conn_there (by simp [pending])
  refine ⟨fun b => ?_, fun env => ?_⟩
  · have recv : s.recv i [b] = s.setConn i
        { s.conn i with inBuf := (s.conn i).inBuf ++ [b], pending := .readChunk (n - 1) } := by
      have fits : (s.conn i).inBuf.length + [b].length ≤ s.capacity := room
      simp only [Server.recv, if_pos fits, pending, if_pos missing]
      rfl
    rw [recv]
    simp only [Trace.next, if_true]
    rw [received_hangUp, Server.conn_setConn_self _ there, List.drop_left]
  · simp only [Server.readFailed, pending, if_pos missing]
    rw [conn_drop there]

theorem advances_line {env : Env} (pending : (s.conn i).pending = .readUntil)
    (done : Server.lineLength (s.conn i).inBuf = none → s.capacity ≤ (s.conn i).inBuf.length)
    (run : s.readDone i env = .ok s') : Advances t (t.next i s (.readDone i env) s') := by
  have there : i < s.conns.length := Server.conn_there (by simp [pending])
  simp only [Trace.next, if_true]
  cases line : Server.lineLength (s.conn i).inBuf with
  | some n =>
    refine advances_hangUp (.inl ?_)
    simp only [Trace.take, pending, line]
    split <;> simp
  | none =>
    -- the buffer is full, and the handler hangs up
    have full := done line
    simp only [Server.readDone, pending, line, if_pos full] at run
    rw [← Except.ok.inj run, hangUp_closed (by simp [pending]) (by rw [conn_drop there])]
    left
    simp only [Trace.take, pending, line]
    split <;> simp

theorem advances_chunk {env : Env} (receiving : Receiving s.chunkSize (s.conn i) n)
    (pos : 0 < s.chunkSize) (pending : (s.conn i).pending = .readChunk n)
    (enough : n = 0 ∨ s.capacity ≤ (s.conn i).inBuf.length) :
    Advances t (t.next i s (.readDone i env) s') := by
  have buffered := receiving.buffered enough
  have enough : n = 0 ∨ s.chunkSize + 2 ≤ (s.conn i).inBuf.length := enough
  simp only [Trace.next, if_true]
  refine advances_hangUp ?_
  simp only [Trace.take, pending, if_pos enough]
  split
  · split <;> exact .inl (by simp)
  case isFalse more =>
    right
    simp only [required, if_pos (Nat.lt_of_not_le more)] at buffered
    rw [List.length_append, List.length_take]
    omega

theorem Observed.alert (h : Observed i s t)
    (reads : (s.conn i).pending = .readUntil ∨ ∃ n, (s.conn i).pending = .readChunk n) :
    Hungry i s t ∨
    ∀ env s', s.Step (.readDone i env) s' → Advances t (t.next i s (.readDone i env) s') := by
  by_cases room : (s.conn i).inBuf.length < s.capacity
  · rcases reads with pending | ⟨n, pending⟩
    · by_cases line : Server.lineLength (s.conn i).inBuf = none
      · exact .inl (hungry_line pending line room)
      · exact .inr fun env s' run => advances_line pending (fun none => absurd none line) run
    · rcases Nat.eq_zero_or_pos n with none | missing
      · exact .inr fun env s' _ => advances_chunk (h.receives.reading i n pending) h.receives.pos
          pending (.inl none)
      · exact .inl (hungry_chunk pending missing room)
  · have full : s.capacity ≤ (s.conn i).inBuf.length := Nat.le_of_not_lt room
    right
    intro env s' run
    rcases reads with pending | ⟨n, pending⟩
    · exact advances_line pending (fun _ => full) run
    · exact advances_chunk (h.receives.reading i n pending) h.receives.pos pending (.inr full)

/-- In every run, whatever the pieces in which the bytes of a connection arrive and
whatever happens on the other connections, the requests, bodies and errors that the
handler takes are those of the plain split, and it takes all of them unless it hangs up
on its client. -/
theorem reads_plain_split {events : List ServerEvent} (started : s.Started)
    (run : watch i (s, {}) events = .ok (s', t)) : Framed i s' t := by
  have h : Observed i s' t := watch_watched (watched_started started) run
  refine ⟨fun open_ sent all => ?_, fun closed ended sent all => ?_, fun there closed ended => ?_,
    h.alert⟩
  · obtain ⟨later, same, -⟩ := ((h.stage (Server.conn_there open_)).settles open_).plain all
    exact ⟨later, same⟩
  · have there : i < s'.conns.length := by
      by_contra beyond
      rw [h.blank (Nat.le_of_not_lt beyond)] at ended
      cases ended
    obtain ⟨frames, taken, settles⟩ := (h.stage there).at_closed closed
    obtain ⟨later, same, none⟩ := settles.plain all
    rw [taken, ← none ended]
    exact same.symm
  · obtain ⟨frames, taken, settles⟩ := (h.stage there).at_closed closed
    refine ⟨frames, taken, fun sent all => ?_⟩
    obtain ⟨later, same, -⟩ := settles.plain all
    exact ⟨later, same⟩

def pieces : List ServerEvent :=
  let env : Env := ⟨fun _ => true, 0, 0, 0⟩
  [.accept, .recv 0 (ascii "set q "), .recv 0 (ascii "0 0 20\r\n0123"), .readDone 0 env,
    .recv 0 (ascii "456789\nabcde"), .readDone 0 env, .recv 0 (ascii "fghi\r"),
    .recv 0 (ascii "\nver"), .readDone 0 env, .writeDone 0 env, .recv 0 (ascii "sion\r\n"),
    .readDone 0 env, .writeDone 0 env, .readFailed 0 env]

theorem reads_plain_split_pieces : ∃ s t, watch 0 (.empty 16 [47], {}) pieces = .ok (s, t) ∧
    t.frames = [.request { type := .set, queue := ascii "q", numBytes := 20 },
      .body (ascii "0123456789\nabcdefghi"), .request { type := .version }, .hangUp] ∧
    Framed 0 s t := by
  have facts : (watch 0 (.empty 16 [47], {}) pieces).toOption.map (fun at_ => at_.2.frames) =
      some [.request { type := .set, queue := ascii "q", numBytes := 20 },
        .body (ascii "0123456789\nabcdefghi"), .request { type := .version }, .hangUp] := by decide
  cases run : watch 0 (.empty 16 [47], {}) pieces with
  | error fault => simp [run, Except.toOption] at facts
  | ok at_ =>
    obtain ⟨s, t⟩ := at_
    simp only [run, Except.toOption, Option.map_some, Option.some.injEq] at facts
    exact ⟨s, t, rfl, facts, reads_plain_split (Server.started_empty 16 [47] (by decide)) run⟩

def refusedGet : List ServerEvent :=
  let env : Env := ⟨fun _ => true, 0, 0, 0⟩
  [.accept, .recv 0 (ascii "get q/abort/open\r\nversion\r\n"), .readDone 0 env, .writeDone 0 env]

/-- The handler answers `CLIENT_ERROR` and hangs up, and the second request is never
read. -/
theorem refused_get_leaves_rest : ∃ s t, watch 0 (.empty 64 [47], {}) refusedGet = .ok (s, t) ∧
    (s.conn 0).pending = .closed ∧ t.received = ascii "get q/abort/open\r\nversion\r\n" ∧
    t.frames ≠ plain s.capacity t.received := by
  have facts : (watch 0 (.empty 64 [47], {}) refusedGet).toOption.map (fun at_ =>
      ((at_.1.conn 0).pending, at_.2.received, decide (at_.2.frames =
        plain at_.1.capacity at_.2.received))) =
      some (.closed, ascii "get q/abort/open\r\nversion\r\n", false) := by decide
  cases run : watch 0 (.empty 64 [47], {}) refusedGet with
  | error fault => simp [run, Except.toOption] at facts
  | ok at_ =>
    obtain ⟨s, t⟩ := at_
    simp only [run, Except.toOption, Option.map_some, Option.some.injEq, Prod.mk.injEq,
      decide_eq_false_iff_not] at facts
    obtain ⟨closed, received, frames⟩ := facts
    exact ⟨s, t, rfl, closed, received, frames⟩

end Darner.RequestFraming
