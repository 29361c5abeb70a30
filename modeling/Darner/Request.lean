import Darner.Library.ActionParser
import Darner.QueueJournal

/-! The request line: `request_grammar` rule by rule, and `request_parser::parse`. -/

namespace Darner
open ActionParser

/-- `request_type`; `unset` is the zero of a value-initialised request. -/
inductive RequestType where
  | unset
  | stats
  | version
  | destroy
  | flush
  | flushAll
  | set
  | get
deriving DecidableEq

structure Request where
  type : RequestType := .unset
  queue : Bytes := []
  numBytes : ℕ := 0
  getOpen : Bool := false
  getPeek : Bool := false
  getClose : Bool := false
  getAbort : Bool := false
  setSync : Bool := false
  waitMs : ℕ := 0
deriving DecidableEq

def ascii (text : String) : Bytes := text.toList.map fun c => UInt8.ofNat c.toNat

namespace Request

def keyChar (b : UInt8) : Bool := 33 ≤ b && b ≤ 126 && b != 47

def keyName : Rule Request Bytes := many1 keyChar

def uint : Rule Request ℕ := numeral (2 ^ 32)

def setType (type : RequestType) (req : Request) : Request := { req with type := type }

def setQueue (name : Bytes) (req : Request) : Request := { req with queue := name }

def word (text : String) (type : RequestType) : Rule Request Unit :=
  on (lit (ascii text)) fun _ => setType type

def statsRule : Rule Request Unit := word "stats" .stats

def versionRule : Rule Request Unit := word "version" .version

def named (text : String) (type : RequestType) : Rule Request Unit :=
  seq (word text type) (unit (on keyName setQueue))

def destroyRule : Rule Request Unit := named "delete " .destroy

def flushRule : Rule Request Unit := named "flush " .flush

def flushAllRule : Rule Request Unit := word "flush_all" .flushAll

def setOption : Rule Request Unit :=
  on (lit (ascii "/sync")) fun _ req => { req with setSync := true }

def space : Rule Request Unit := lit (ascii " ")

/-- The flags and the expiration are read and ignored. -/
def setRule : Rule Request Unit :=
  seq (named "set " .set) <| seq (star setOption) <| seq space <| seq uint <| seq space <|
    seq uint <| seq space <| unit <| on uint fun n req => { req with numBytes := n }

def getOption : Rule Request Unit :=
  alt (on (lit (ascii "/open")) fun _ req => { req with getOpen := true }) <|
  alt (on (lit (ascii "/peek")) fun _ req => { req with getPeek := true }) <|
  alt (on (lit (ascii "/close")) fun _ req => { req with getClose := true }) <|
  alt (on (lit (ascii "/abort")) fun _ req => { req with getAbort := true }) <|
  seq (lit (ascii "/t=")) (unit (on uint fun n req => { req with waitMs := n }))

/-- `gets` is okay too, and so is a space at the end. -/
def getRule : Rule Request Unit :=
  seq (word "get" .get) <| seq (opt (lit (ascii "s"))) <| seq space <|
    seq (unit (on keyName setQueue)) <| seq (star getOption) (opt space)

def startRule : Rule Request Unit :=
  seq (alt statsRule <| alt versionRule <| alt destroyRule <| alt flushRule <| alt flushAllRule <|
    alt setRule getRule) eol

/-- `request_parser::parse`: the request, when the whole input is one. -/
def parse (line : Bytes) : Option Request :=
  match startRule {} line with
  | (req, some (_, [])) => some req
  | _ => none

def Small (req : Request) : Prop := req.numBytes < 2 ^ 32

theorem small_on {α : Type} {p : Rule Request α} {f : α → Request → Request}
    (keeps : Keeps Small p) (same : ∀ a req, (f a req).numBytes = req.numBytes) :
    Keeps Small (on p f) := by
  refine keeps_on keeps (yields_any p) fun a req _ small => ?_
  rw [Small, same]
  exact small

theorem small_word (text : String) (type : RequestType) : Keeps Small (word text type) :=
  small_on (keeps_lit _) fun _ _ => rfl

theorem small_name : Keeps Small (unit (on keyName setQueue)) :=
  keeps_unit (small_on (keeps_many1 _) fun _ _ => rfl)

theorem small_named (text : String) (type : RequestType) : Keeps Small (named text type) :=
  keeps_seq (small_word text type) small_name

theorem small_uint : Keeps Small uint := keeps_numeral _

theorem small_space : Keeps Small space := keeps_lit _

theorem small_numBytes :
    Keeps Small (unit (on uint fun n (req : Request) => { req with numBytes := n })) :=
  keeps_unit (keeps_on small_uint (yields_numeral _) fun _ _ small _ => small)

theorem small_setRule : Keeps Small setRule := by
  refine keeps_seq (small_named _ _) (keeps_seq (keeps_star ?_) ?_)
  · exact small_on (keeps_lit _) fun _ _ => rfl
  · refine keeps_seq small_space (keeps_seq small_uint (keeps_seq small_space ?_))
    exact keeps_seq small_uint (keeps_seq small_space small_numBytes)

theorem small_getOption : Keeps Small getOption := by
  have flag : ∀ text (f : Unit → Request → Request),
      (∀ a req, (f a req).numBytes = req.numBytes) → Keeps Small (on (lit (ascii text)) f) :=
    fun text f same => small_on (keeps_lit _) same
  refine keeps_alt (flag _ _ fun _ _ => rfl) (keeps_alt (flag _ _ fun _ _ => rfl) ?_)
  refine keeps_alt (flag _ _ fun _ _ => rfl) (keeps_alt (flag _ _ fun _ _ => rfl) ?_)
  exact keeps_seq (keeps_lit _) (keeps_unit (small_on small_uint fun _ _ => rfl))

theorem small_getRule : Keeps Small getRule := by
  refine keeps_seq (small_word _ _) (keeps_seq (keeps_opt (keeps_lit _)) ?_)
  exact keeps_seq small_space (keeps_seq small_name
    (keeps_seq (keeps_star small_getOption) (keeps_opt small_space)))

theorem small_startRule : Keeps Small startRule := by
  refine keeps_seq ?_ keeps_eol
  refine keeps_alt (small_word _ _) (keeps_alt (small_word _ _) (keeps_alt (small_named _ _) ?_))
  exact keeps_alt (small_named _ _) (keeps_alt (small_word _ _)
    (keeps_alt small_setRule small_getRule))

theorem numBytes_parse {line : Bytes} {req : Request} (h : parse line = some req) :
    req.numBytes < 2 ^ 32 := by
  have last := small_startRule {} line (Nat.two_pow_pos 32)
  unfold parse at h
  split at h
  case h_1 result =>
    rw [result] at last
    rw [← Option.some.inj h]
    exact last
  case h_2 => cases h

example : parse (ascii "get q/t=250/open\r\n") =
    some { type := .get, queue := ascii "q", getOpen := true, waitMs := 250 } := by decide

end Request

end Darner
