import Mathlib.Data.Nat.Digits.Defs
import Darner.Request

/-! The language of request lines, stated by what a line is made of, and that
`request_parser::parse` accepts exactly its lines, with the request that each denotes. -/

namespace Darner
open ActionParser

namespace Request

def Alnum (b : UInt8) : Prop := 48 ≤ b ∧ b ≤ 57 ∨ 65 ≤ b ∧ b ≤ 90 ∨ 97 ≤ b ∧ b ≤ 122

def Punct (b : UInt8) : Prop :=
  33 ≤ b ∧ b ≤ 47 ∨ 58 ≤ b ∧ b ≤ 64 ∨ 91 ≤ b ∧ b ≤ 96 ∨ 123 ≤ b ∧ b ≤ 126

def IsKey (name : Bytes) : Prop := name ≠ [] ∧ ∀ b ∈ name, (Alnum b ∨ Punct b) ∧ b ≠ 47

def value (digits : Bytes) : ℕ := Nat.ofDigits 10 (digits.reverse.map fun b => b.toNat - 48)

def IsNumeral (digits : Bytes) : Prop :=
  digits ≠ [] ∧ (∀ b ∈ digits, 48 ≤ b ∧ b ≤ 57) ∧ value digits < 2 ^ 32

inductive GetOption where
  | getOpen
  | getPeek
  | getClose
  | getAbort
  | waitMs (digits : Bytes)
deriving DecidableEq

namespace GetOption

def text : GetOption → Bytes
  | getOpen => ascii "/open"
  | getPeek => ascii "/peek"
  | getClose => ascii "/close"
  | getAbort => ascii "/abort"
  | waitMs digits => ascii "/t=" ++ digits

def Valid : GetOption → Prop
  | waitMs digits => IsNumeral digits
  | _ => True

def wait : GetOption → Option ℕ
  | waitMs digits => some (value digits)
  | _ => none

end GetOption

/-- The wait time of the last option that gives one. -/
def lastWait (options : List GetOption) : ℕ := ((options.filterMap GetOption.wait).getLast?).getD 0

def getRequest (name : Bytes) (options : List GetOption) : Request where
  type := .get
  queue := name
  getOpen := options.contains .getOpen
  getPeek := options.contains .getPeek
  getClose := options.contains .getClose
  getAbort := options.contains .getAbort
  waitMs := lastWait options

/-- The text of a command, and the request that it denotes. -/
inductive Denotes : Bytes → Request → Prop where
  | stats : Denotes (ascii "stats") { type := .stats }
  | version : Denotes (ascii "version") { type := .version }
  | destroy {name : Bytes} (key : IsKey name) :
      Denotes (ascii "delete " ++ name) { type := .destroy, queue := name }
  | flush {name : Bytes} (key : IsKey name) :
      Denotes (ascii "flush " ++ name) { type := .flush, queue := name }
  | flushAll : Denotes (ascii "flush_all") { type := .flushAll }
  | set {name flags expiration size : Bytes} (syncs : ℕ) (key : IsKey name)
      (first : IsNumeral flags) (second : IsNumeral expiration) (third : IsNumeral size) :
      Denotes (ascii "set " ++ name ++ (List.replicate syncs (ascii "/sync")).flatten ++
          ascii " " ++ flags ++ ascii " " ++ expiration ++ ascii " " ++ size)
        { type := .set, queue := name, setSync := decide (0 < syncs), numBytes := value size }
  | get {command name : Bytes} {options : List GetOption} {tail : Bytes}
      (either : command = ascii "get" ∨ command = ascii "gets") (key : IsKey name)
      (all : ∀ option ∈ options, option.Valid) (space : tail = [] ∨ tail = ascii " ") :
      Denotes (command ++ ascii " " ++ name ++ options.flatMap GetOption.text ++ tail)
        (getRequest name options)

def LineEnd (text : Bytes) : Prop := text = [13, 10] ∨ text = [13] ∨ text = [10]

/-- The line is a command followed by an end of line and nothing more. -/
def Accepts (line : Bytes) (req : Request) : Prop :=
  ∃ command ending, line = command ++ ending ∧ LineEnd ending ∧ Denotes command req

theorem keyChar_iff (b : UInt8) : keyChar b = true ↔ (Alnum b ∨ Punct b) ∧ b ≠ 47 := by
  simp only [keyChar, Alnum, Punct, Bool.and_eq_true, decide_eq_true_eq, bne_iff_ne, ne_eq,
    UInt8.le_iff_toNat_le, ← UInt8.toNat_inj, UInt8.reduceToNat]
  omega

theorem isKey_iff (name : Bytes) : IsKey name ↔ name ≠ [] ∧ ∀ b ∈ name, keyChar b = true := by
  simp only [IsKey, keyChar_iff]

theorem digit_iff (b : UInt8) : digit b = true ↔ 48 ≤ b ∧ b ≤ 57 := by
  simp [digit]

theorem value_append (digits : Bytes) (b : UInt8) :
    value (digits ++ [b]) = 10 * value digits + (b.toNat - 48) := by
  simp only [value, List.reverse_append, List.reverse_cons, List.reverse_nil, List.nil_append,
    List.singleton_append, List.map_cons, Nat.ofDigits_cons]
  omega

theorem decimal_eq_value (digits : Bytes) : decimal digits = value digits := by
  induction digits using List.reverseRecOn with
  | nil => rfl
  | append_singleton digits b ih =>
    rw [value_append, ← ih]
    simp only [decimal, List.foldl_append, List.foldl_cons, List.foldl_nil]

theorem uint_some {s s' : Request} {input rest : Bytes} {n : ℕ} :
    uint s input = (s', some (n, rest)) ↔ s' = s ∧ ∃ digits, input = digits ++ rest ∧
      IsNumeral digits ∧ Stops digit rest ∧ n = value digits := by
  simp only [uint, numeral_some, IsNumeral, digit_iff, decimal_eq_value]
  constructor
  · rintro ⟨rfl, digits, rfl, some, all, stops, rfl, small⟩
    exact ⟨rfl, digits, rfl, ⟨some, all, small⟩, stops, rfl⟩
  · rintro ⟨rfl, digits, rfl, ⟨some, all, small⟩, stops, rfl⟩
    exact ⟨rfl, digits, rfl, some, all, stops, rfl, small⟩

theorem name_some {s s' : Request} {input rest : Bytes} {u : Unit} :
    unit (on keyName setQueue) s input = (s', some (u, rest)) ↔
      ∃ name, input = name ++ rest ∧ IsKey name ∧ Stops keyChar rest ∧ s' = setQueue name s := by
  simp only [unit_some, on_some, keyName, many1_some, isKey_iff]
  constructor
  · rintro ⟨name, t, ⟨rfl, rfl, some, all, stops⟩, rfl⟩
    exact ⟨name, rfl, ⟨some, all⟩, stops, rfl⟩
  · rintro ⟨name, rfl, ⟨some, all⟩, stops, rfl⟩
    exact ⟨name, s, ⟨rfl, rfl, some, all, stops⟩, rfl⟩

theorem fires_some {text : String} {action : Request → Request} {s s' : Request}
    {input rest : Bytes} {u : Unit} :
    on (lit (ascii text)) (fun _ => action) s input = (s', some (u, rest)) ↔
      input = ascii text ++ rest ∧ s' = action s := by
  simp only [on_some, lit_some]
  constructor
  · rintro ⟨t, ⟨rfl, rfl⟩, rfl⟩
    exact ⟨rfl, rfl⟩
  · rintro ⟨rfl, rfl⟩
    exact ⟨s, ⟨rfl, rfl⟩, rfl⟩

theorem word_some {text : String} {type : RequestType} {s s' : Request} {input rest : Bytes}
    {u : Unit} : word text type s input = (s', some (u, rest)) ↔
      input = ascii text ++ rest ∧ s' = setType type s := fires_some

theorem named_some {text : String} {type : RequestType} {s s' : Request} {input rest : Bytes}
    {u : Unit} : named text type s input = (s', some (u, rest)) ↔
      ∃ name, input = ascii text ++ name ++ rest ∧ IsKey name ∧ Stops keyChar rest ∧
        s' = setQueue name (setType type s) := by
  simp only [named, seq_some, word_some, name_some]
  constructor
  · rintro ⟨t, a, mid, ⟨rfl, rfl⟩, name, rfl, key, stops, rfl⟩
    exact ⟨name, (List.append_assoc _ _ _).symm, key, stops, rfl⟩
  · rintro ⟨name, rfl, key, stops, rfl⟩
    exact ⟨_, (), name ++ rest, ⟨List.append_assoc _ _ _, rfl⟩, name, rfl, key, stops, rfl⟩

theorem stops_cons {cls : UInt8 → Bool} {b : UInt8} (outside : cls b = false) (rest : Bytes) :
    Stops cls (b :: rest) := by
  intro first same
  cases same
  exact outside

def Delimited (rest : Bytes) : Prop :=
  ∃ b more, rest = b :: more ∧ (b = 32 ∨ b = 47 ∨ b = 13 ∨ b = 10)

theorem Delimited.key {rest : Bytes} (h : Delimited rest) : Stops keyChar rest := by
  obtain ⟨b, more, rfl, rfl | rfl | rfl | rfl⟩ := h <;> exact stops_cons (by decide) _

theorem Delimited.digits {rest : Bytes} (h : Delimited rest) : Stops digit rest := by
  obtain ⟨b, more, rfl, rfl | rfl | rfl | rfl⟩ := h <;> exact stops_cons (by decide) _

theorem delimited_space (rest : Bytes) : Delimited (ascii " " ++ rest) :=
  ⟨32, rest, rfl, .inl rfl⟩

theorem delimited_ending {ending : Bytes} (h : LineEnd ending) : Delimited ending := by
  rcases h with rfl | rfl | rfl
  · exact ⟨13, _, rfl, by simp⟩
  · exact ⟨13, _, rfl, by simp⟩
  · exact ⟨10, _, rfl, by simp⟩

theorem setOption_some {s s' : Request} {input rest : Bytes} {u : Unit} :
    setOption s input = (s', some (u, rest)) ↔
      input = ascii "/sync" ++ rest ∧ s' = { s with setSync := true } := fires_some

theorem consumes_setOption : Consumes setOption := by
  intro s input s' rest h
  rw [(setOption_some.mp h).1, List.length_append]
  have some : 0 < (ascii "/sync").length := by decide
  omega

theorem not_prefix_space {text : Bytes} (slash : ∃ more, text = 47 :: more) (rest : Bytes) :
    ¬text <+: ascii " " ++ rest := by
  obtain ⟨more, rfl⟩ := slash
  rintro ⟨tail, same⟩
  exact absurd (List.cons.inj same).1 (by decide)

theorem setOption_space (s : Request) (rest : Bytes) :
    setOption s (ascii " " ++ rest) = (s, none) :=
  guarded_on (guarded_lit _) _ s _ (not_prefix_space ⟨_, rfl⟩ rest)

theorem foldl_sync (s : Request) (syncs : List Unit) :
    syncs.foldl (fun s _ => { s with setSync := true }) s =
      { s with setSync := s.setSync || decide (0 < syncs.length) } := by
  induction syncs generalizing s with
  | nil => simp
  | cons sync syncs ih =>
    rw [List.foldl_cons, ih]
    simp

theorem syncs_some {s s' : Request} {input rest : Bytes} {u : Unit} :
    (∃ mid, star setOption s input = (s', some (u, mid)) ∧ mid = ascii " " ++ rest) ↔
      ∃ syncs, input = (List.replicate syncs (ascii "/sync")).flatten ++ (ascii " " ++ rest) ∧
        s' = { s with setSync := s.setSync || decide (0 < syncs) } := by
  simp only [star_some consumes_setOption]
  constructor
  · rintro ⟨mid, ⟨t, repeats, last⟩, rfl⟩
    rw [setOption_space] at last
    cases last
    have each : ∀ s input s' rest, setOption s input = (s', some ((), rest)) →
        ∃ o : Unit, True ∧ input = ascii "/sync" ++ rest ∧ s' = { s with setSync := true } :=
      fun s input s' rest h => ⟨(), trivial, setOption_some.mp h⟩
    obtain ⟨syncs, -, rfl, rfl⟩ := list_of_repeats each repeats
    refine ⟨syncs.length, ?_, foldl_sync s syncs⟩
    rw [List.flatMap_def, List.map_const']
  · rintro ⟨syncs, rfl, rfl⟩
    refine ⟨_, ⟨_, ?_, setOption_space _ rest⟩, rfl⟩
    have each : ∀ (o : Unit) s rest, True → True → setOption s (ascii "/sync" ++ rest) =
        ({ s with setSync := true }, some ((), rest)) :=
      fun o s rest _ _ => setOption_some.mpr ⟨rfl, rfl⟩
    have repeats : Repeats setOption s _ _ (ascii " " ++ rest) :=
      repeats_of_list each (fun _ _ => trivial) trivial (List.replicate syncs ())
        (fun _ _ => trivial) s
    rw [foldl_sync, List.length_replicate, List.flatMap_def, List.map_replicate] at repeats
    exact repeats

theorem numbers_some {s s' : Request} {input rest : Bytes} {u : Unit} :
    (seq space <| seq uint <| seq space <| seq uint <| seq space <| unit <|
        on uint fun n (req : Request) => { req with numBytes := n }) s input =
      (s', some (u, rest)) ↔
      ∃ flags expiration size, IsNumeral flags ∧ IsNumeral expiration ∧ IsNumeral size ∧
        input = ascii " " ++ (flags ++ (ascii " " ++ (expiration ++ (ascii " " ++
          (size ++ rest))))) ∧
        Stops digit rest ∧ s' = { s with numBytes := value size } := by
  simp only [seq_some, space, lit_some, uint_some, unit_some, on_some]
  constructor
  · rintro ⟨_, _, _, ⟨rfl, rfl⟩, _, _, _, ⟨rfl, flags, rfl, first, -, -⟩, _, _, _, ⟨rfl, rfl⟩,
      _, _, _, ⟨rfl, expiration, rfl, second, -, -⟩, _, _, _, ⟨rfl, rfl⟩, _, _,
      ⟨rfl, size, rfl, third, stops, rfl⟩, rfl⟩
    exact ⟨flags, expiration, size, first, second, third, rfl, stops, rfl⟩
  · rintro ⟨flags, expiration, size, first, second, third, rfl, stops, rfl⟩
    have blank := fun rest => (delimited_space rest).digits
    exact ⟨s, (), _, ⟨rfl, rfl⟩, s, _, _, ⟨rfl, flags, rfl, first, blank _, rfl⟩,
      s, (), _, ⟨rfl, rfl⟩, s, _, _, ⟨rfl, expiration, rfl, second, blank _, rfl⟩,
      s, (), _, ⟨rfl, rfl⟩, _, s, ⟨rfl, size, rfl, third, stops, rfl⟩, rfl⟩

namespace GetOption

def act : GetOption → Request → Request
  | getOpen, req => { req with getOpen := true }
  | getPeek, req => { req with getPeek := true }
  | getClose, req => { req with getClose := true }
  | getAbort, req => { req with getAbort := true }
  | waitMs digits, req => { req with waitMs := value digits }

theorem text_slash (option : GetOption) : ∃ more, option.text = 47 :: more := by
  cases option <;> exact ⟨_, rfl⟩

theorem delimited_text (option : GetOption) (rest : Bytes) : Delimited (option.text ++ rest) := by
  obtain ⟨more, slash⟩ := option.text_slash
  exact ⟨47, more ++ rest, by rw [slash, List.cons_append], by simp⟩

end GetOption

theorem waitOption_some {s s' : Request} {input rest : Bytes} {u : Unit} :
    seq (lit (ascii "/t=")) (unit (on uint fun n (req : Request) => { req with waitMs := n })) s
        input = (s', some (u, rest)) ↔
      ∃ digits, IsNumeral digits ∧ input = ascii "/t=" ++ digits ++ rest ∧ Stops digit rest ∧
        s' = { s with waitMs := value digits } := by
  simp only [seq_some, lit_some, unit_some, on_some, uint_some]
  constructor
  · rintro ⟨t, a, mid, ⟨rfl, rfl⟩, n, t', ⟨rfl, digits, rfl, numeral, stops, rfl⟩, rfl⟩
    exact ⟨digits, numeral, (List.append_assoc _ _ _).symm, stops, rfl⟩
  · rintro ⟨digits, numeral, rfl, stops, rfl⟩
    exact ⟨s, (), digits ++ rest, ⟨rfl, List.append_assoc _ _ _⟩, value digits, s,
      ⟨rfl, digits, rfl, numeral, stops, rfl⟩, rfl⟩

theorem guarded_fires (text : String) (action : Request → Request) :
    Guarded (ascii text <+: ·) (on (lit (ascii text)) fun _ => action) :=
  guarded_on (guarded_lit _) _

theorem getOption_rule :
    Guarded (Starts [ascii "/open", ascii "/peek", ascii "/close", ascii "/abort", ascii "/t="])
      getOption ∧
    ∀ {s s' : Request} {input rest : Bytes} {u : Unit},
      getOption s input = (s', some (u, rest)) ↔
        (input = ascii "/open" ++ rest ∧ s' = { s with getOpen := true }) ∨
        (input = ascii "/peek" ++ rest ∧ s' = { s with getPeek := true }) ∨
        (input = ascii "/close" ++ rest ∧ s' = { s with getClose := true }) ∨
        (input = ascii "/abort" ++ rest ∧ s' = { s with getAbort := true }) ∨
        ∃ digits, IsNumeral digits ∧ input = ascii "/t=" ++ digits ++ rest ∧ Stops digit rest ∧
          s' = { s with waitMs := value digits } := by
  have wait := guarded_last (guarded_seq (guarded_lit (ascii "/t="))
    (unit (on uint fun n (req : Request) => { req with waitMs := n })))
  have abort := choice_some
    (guarded_fires "/abort" fun req => { req with getAbort := true }) wait (by decide)
  have close := choice_some
    (guarded_fires "/close" fun req => { req with getClose := true }) abort.1 (by decide)
  have peek := choice_some
    (guarded_fires "/peek" fun req => { req with getPeek := true }) close.1 (by decide)
  have opens := choice_some
    (guarded_fires "/open" fun req => { req with getOpen := true }) peek.1 (by decide)
  refine ⟨opens.1, fun {s s' input rest u} => ?_⟩
  unfold getOption
  rw [opens.2, peek.2, close.2, abort.2, waitOption_some]
  simp only [fires_some]

theorem getOption_some {s s' : Request} {input rest : Bytes}
    (h : getOption s input = (s', some ((), rest))) :
    ∃ option : GetOption, option.Valid ∧ input = option.text ++ rest ∧ s' = option.act s := by
  rcases getOption_rule.2.mp h with ⟨rfl, rfl⟩ | ⟨rfl, rfl⟩ | ⟨rfl, rfl⟩ | ⟨rfl, rfl⟩ | h
  · exact ⟨.getOpen, trivial, rfl, rfl⟩
  · exact ⟨.getPeek, trivial, rfl, rfl⟩
  · exact ⟨.getClose, trivial, rfl, rfl⟩
  · exact ⟨.getAbort, trivial, rfl, rfl⟩
  · obtain ⟨digits, numeral, rfl, -, rfl⟩ := h
    exact ⟨.waitMs digits, numeral, rfl, rfl⟩

theorem getOption_text (option : GetOption) (s : Request) (rest : Bytes) (valid : option.Valid)
    (ends : Delimited rest) : getOption s (option.text ++ rest) = (option.act s, some ((), rest)) := by
  refine getOption_rule.2.mpr ?_
  cases option with
  | getOpen => exact .inl ⟨rfl, rfl⟩
  | getPeek => exact .inr (.inl ⟨rfl, rfl⟩)
  | getClose => exact .inr (.inr (.inl ⟨rfl, rfl⟩))
  | getAbort => exact .inr (.inr (.inr (.inl ⟨rfl, rfl⟩)))
  | waitMs digits => exact .inr (.inr (.inr (.inr ⟨digits, valid, rfl, ends.digits, rfl⟩)))

theorem consumes_getOption : Consumes getOption := by
  intro s input s' rest h
  obtain ⟨option, -, rfl, -⟩ := getOption_some h
  obtain ⟨more, slash⟩ := option.text_slash
  simp only [slash, List.length_append, List.length_cons]
  omega

theorem getOption_stop {b : UInt8} {rest : Bytes} (other : b ≠ 47) (s : Request) :
    getOption s (b :: rest) = (s, none) := by
  refine getOption_rule.1 s _ ?_
  rintro ⟨text, mem, here⟩
  have slash : ∃ more, text = 47 :: more := by
    simp only [List.mem_cons, List.not_mem_nil, or_false] at mem
    rcases mem with rfl | rfl | rfl | rfl | rfl <;> exact ⟨_, rfl⟩
  obtain ⟨more, rfl⟩ := slash
  obtain ⟨tail, same⟩ := here
  exact other (List.cons.inj same).1.symm

theorem quiet_getOption : Quiet getOption := by
  have fires : ∀ (text : String) (action : Request → Request),
      Quiet (on (lit (ascii text)) fun _ => action) :=
    fun text action => quiet_on (quiet_lit _) _
  refine quiet_alt (fires _ _) (quiet_alt (fires _ _) (quiet_alt (fires _ _) ?_))
  refine quiet_alt (fires _ _) (quiet_lit_seq _ ?_)
  exact quiet_unit (quiet_on (quiet_numeral _) _)

def withOptions (s : Request) (options : List GetOption) : Request :=
  { s with
    getOpen := s.getOpen || options.contains .getOpen
    getPeek := s.getPeek || options.contains .getPeek
    getClose := s.getClose || options.contains .getClose
    getAbort := s.getAbort || options.contains .getAbort
    waitMs := ((options.filterMap GetOption.wait).getLast?).getD s.waitMs }

theorem foldl_act (s : Request) (options : List GetOption) :
    options.foldl (fun s option => option.act s) s = withOptions s options := by
  induction options generalizing s with
  | nil => simp [withOptions]
  | cons option options ih =>
    rw [List.foldl_cons, ih]
    cases option <;>
      simp [withOptions, GetOption.act, GetOption.wait, List.getLast?_cons]

theorem options_some {s s' : Request} {input rest : Bytes}
    (h : star getOption s input = (s', some ((), rest))) :
    ∃ options : List GetOption, (∀ option ∈ options, option.Valid) ∧
      input = options.flatMap GetOption.text ++ rest ∧ s' = withOptions s options := by
  obtain ⟨t, repeats, last⟩ := (star_some consumes_getOption).mp h
  rw [quiet_getOption t rest s' last]
  obtain ⟨options, all, same, rfl⟩ :=
    list_of_repeats (fun _ _ _ _ h => getOption_some h) repeats
  exact ⟨options, all, same, foldl_act s options⟩

theorem options_text {options : List GetOption} (all : ∀ option ∈ options, option.Valid)
    (s : Request) {b : UInt8} {rest : Bytes} (ends : Delimited (b :: rest)) (other : b ≠ 47) :
    star getOption s (options.flatMap GetOption.text ++ b :: rest) =
      (withOptions s options, some ((), b :: rest)) := by
  refine (star_some consumes_getOption).mpr ⟨_, ?_, getOption_stop other _⟩
  rw [← foldl_act]
  exact repeats_of_list (fun option s rest => getOption_text option s rest)
    GetOption.delimited_text ends options all s

def Reads (rule : Rule Request Unit) (type : RequestType) : Prop :=
  ∀ (req : Request) (input ending : Bytes) (u : Unit), LineEnd ending →
    (rule {} input = (req, some (u, ending)) ↔
      ∃ command, input = command ++ ending ∧ Denotes command req ∧ req.type = type)

theorem reads_word {text : String} {type : RequestType}
    (denotes : ∀ command req, Denotes command req ∧ req.type = type ↔
      command = ascii text ∧ req = { type := type }) : Reads (word text type) type := by
  intro req input ending u line
  rw [word_some]
  constructor
  · rintro ⟨rfl, rfl⟩
    exact ⟨_, rfl, (denotes _ _).mpr ⟨rfl, rfl⟩⟩
  · rintro ⟨command, rfl, h⟩
    obtain ⟨rfl, rfl⟩ := (denotes _ _).mp h
    exact ⟨rfl, rfl⟩

theorem reads_named {text : String} {type : RequestType}
    (denotes : ∀ command req, Denotes command req ∧ req.type = type ↔
      ∃ name, IsKey name ∧ command = ascii text ++ name ∧ req = { type := type, queue := name }) :
    Reads (named text type) type := by
  intro req input ending u line
  rw [named_some]
  constructor
  · rintro ⟨name, rfl, key, stops, rfl⟩
    exact ⟨_, rfl, (denotes _ _).mpr ⟨name, key, rfl, rfl⟩⟩
  · rintro ⟨command, rfl, h⟩
    obtain ⟨name, key, rfl, rfl⟩ := (denotes _ _).mp h
    exact ⟨name, rfl, key, (delimited_ending line).key, rfl⟩

theorem reads_stats : Reads statsRule .stats := by
  refine reads_word fun command req => ⟨?_, ?_⟩
  · rintro ⟨denotes, type⟩
    cases denotes with
    | stats => exact ⟨rfl, rfl⟩
    | _ => cases type
  · rintro ⟨rfl, rfl⟩
    exact ⟨.stats, rfl⟩

theorem reads_version : Reads versionRule .version := by
  refine reads_word fun command req => ⟨?_, ?_⟩
  · rintro ⟨denotes, type⟩
    cases denotes with
    | version => exact ⟨rfl, rfl⟩
    | _ => cases type
  · rintro ⟨rfl, rfl⟩
    exact ⟨.version, rfl⟩

theorem reads_flushAll : Reads flushAllRule .flushAll := by
  refine reads_word fun command req => ⟨?_, ?_⟩
  · rintro ⟨denotes, type⟩
    cases denotes with
    | flushAll => exact ⟨rfl, rfl⟩
    | _ => cases type
  · rintro ⟨rfl, rfl⟩
    exact ⟨.flushAll, rfl⟩

theorem reads_destroy : Reads destroyRule .destroy := by
  refine reads_named fun command req => ⟨?_, ?_⟩
  · rintro ⟨denotes, type⟩
    cases denotes with
    | destroy key => exact ⟨_, key, rfl, rfl⟩
    | _ => cases type
  · rintro ⟨name, key, rfl, rfl⟩
    exact ⟨.destroy key, rfl⟩

theorem reads_flush : Reads flushRule .flush := by
  refine reads_named fun command req => ⟨?_, ?_⟩
  · rintro ⟨denotes, type⟩
    cases denotes with
    | flush key => exact ⟨_, key, rfl, rfl⟩
    | _ => cases type
  · rintro ⟨name, key, rfl, rfl⟩
    exact ⟨.flush key, rfl⟩

theorem delimited_syncs (count : ℕ) (rest : Bytes) :
    Delimited ((List.replicate count (ascii "/sync")).flatten ++ (ascii " " ++ rest)) := by
  cases count with
  | zero => exact delimited_space rest
  | succ count => exact ⟨47, _, rfl, by simp⟩

theorem reads_set : Reads setRule .set := by
  intro req input ending u line
  constructor
  · intro h
    obtain ⟨t, a, mid, first, after⟩ := seq_some.mp h
    obtain ⟨t', a', mid', second, numbers⟩ := seq_some.mp after
    obtain ⟨name, rfl, key, -, rfl⟩ := named_some.mp first
    obtain ⟨flags, expiration, size, flagged, expires, sized, rfl, -, rfl⟩ :=
      numbers_some.mp numbers
    obtain ⟨count, rfl, rfl⟩ := syncs_some.mp ⟨_, second, rfl⟩
    have denotes := Denotes.set count key flagged expires sized
    refine ⟨_, ?_, denotes, rfl⟩
    simp only [List.append_assoc]
  · rintro ⟨command, rfl, denotes, type⟩
    cases denotes with
    | @set name flags expiration size count key flagged expires sized =>
      simp only [List.append_assoc]
      obtain ⟨mid, second, rfl⟩ := syncs_some.mpr ⟨count, rfl, rfl⟩
      refine seq_some.mpr ⟨_, (), _, named_some.mpr ⟨name, (List.append_assoc _ _ _).symm, key,
        (delimited_syncs count _).key, rfl⟩, ?_⟩
      refine seq_some.mpr ⟨_, (), _, second, numbers_some.mpr ⟨flags, expiration, size, flagged,
        expires, sized, rfl, (delimited_ending line).digits, rfl⟩⟩
    | _ => cases type

theorem tail_ending {tail ending : Bytes} (space : tail = [] ∨ tail = ascii " ")
    (line : LineEnd ending) : ∃ b rest, tail ++ ending = b :: rest ∧ Delimited (b :: rest) ∧ b ≠ 47 := by
  rcases space with rfl | rfl
  · rcases line with rfl | rfl | rfl
    · exact ⟨13, _, rfl, ⟨13, _, rfl, by simp⟩, by decide⟩
    · exact ⟨13, _, rfl, ⟨13, _, rfl, by simp⟩, by decide⟩
    · exact ⟨10, _, rfl, ⟨10, _, rfl, by simp⟩, by decide⟩
  · exact ⟨32, ending, rfl, ⟨32, _, rfl, by simp⟩, by decide⟩

theorem opt_space {s s' : Request} {input ending : Bytes} {u : Unit} (line : LineEnd ending) :
    opt space s input = (s', some (u, ending)) ↔
      s' = s ∧ ∃ tail, (tail = [] ∨ tail = ascii " ") ∧ input = tail ++ ending := by
  rw [opt_some, space, lit_some]
  constructor
  · rintro (⟨rfl, rfl⟩ | ⟨none, rfl⟩)
    · exact ⟨rfl, _, .inr rfl, rfl⟩
    · exact ⟨quiet_lit _ _ _ _ none, [], .inl rfl, rfl⟩
  · rintro ⟨rfl, tail, rfl | rfl, rfl⟩
    · refine .inr ⟨?_, rfl⟩
      rcases line with rfl | rfl | rfl <;> rfl
    · exact .inl ⟨rfl, rfl⟩

theorem opt_s {s s' : Request} {input rest : Bytes} {u : Unit} :
    opt (lit (ascii "s")) s input = (s', some (u, ascii " " ++ rest)) ↔
      s' = s ∧ ∃ plural, (plural = [] ∨ plural = ascii "s") ∧
        input = plural ++ (ascii " " ++ rest) := by
  rw [opt_some, lit_some]
  constructor
  · rintro (⟨rfl, rfl⟩ | ⟨none, rfl⟩)
    · exact ⟨rfl, _, .inr rfl, rfl⟩
    · exact ⟨quiet_lit _ _ _ _ none, [], .inl rfl, rfl⟩
  · rintro ⟨rfl, plural, rfl | rfl, rfl⟩
    · exact .inr ⟨rfl, rfl⟩
    · exact .inl ⟨rfl, rfl⟩

theorem getRequest_eq (name : Bytes) (options : List GetOption) :
    withOptions (setQueue name (setType .get {})) options = getRequest name options := rfl

theorem reads_get : Reads getRule .get := by
  intro req input ending u line
  constructor
  · intro h
    obtain ⟨t₁, a₁, mid₁, first, after₁⟩ := seq_some.mp h
    obtain ⟨t₂, a₂, mid₂, second, after₂⟩ := seq_some.mp after₁
    obtain ⟨t₃, a₃, mid₃, third, after₃⟩ := seq_some.mp after₂
    obtain ⟨t₄, a₄, mid₄, fourth, after₄⟩ := seq_some.mp after₃
    obtain ⟨t₅, a₅, mid₅, fifth, last⟩ := seq_some.mp after₄
    obtain ⟨rfl, rfl⟩ := word_some.mp first
    obtain ⟨rfl, rfl⟩ := lit_some.mp third
    obtain ⟨name, rfl, key, -, rfl⟩ := name_some.mp fourth
    obtain ⟨options, all, rfl, rfl⟩ := options_some fifth
    obtain ⟨rfl, tail, space, rfl⟩ := (opt_space line).mp last
    obtain ⟨rfl, plural, either, rfl⟩ := opt_s.mp second
    have command : ascii "get" ++ plural = ascii "get" ∨ ascii "get" ++ plural = ascii "gets" := by
      rcases either with rfl | rfl
      · exact .inl rfl
      · exact .inr rfl
    rw [getRequest_eq]
    refine ⟨_, ?_, .get command key all space, rfl⟩
    simp only [List.append_assoc]
  · rintro ⟨command, rfl, denotes, type⟩
    cases denotes with
    | @get command name options tail either key all space =>
      obtain ⟨b, rest, same, ends, other⟩ := tail_ending space line
      have plural : ∃ plural, (plural = [] ∨ plural = ascii "s") ∧
          command = ascii "get" ++ plural := by
        rcases either with rfl | rfl
        · exact ⟨[], .inl rfl, rfl⟩
        · exact ⟨_, .inr rfl, rfl⟩
      obtain ⟨plural, added, rfl⟩ := plural
      have stops : Delimited (options.flatMap GetOption.text ++ b :: rest) := by
        cases options with
        | nil => exact ends
        | cons option options =>
          rw [List.flatMap_cons, List.append_assoc]
          exact option.delimited_text _
      simp only [List.append_assoc, same]
      refine seq_some.mpr ⟨_, (), _, word_some.mpr ⟨rfl, rfl⟩, ?_⟩
      refine seq_some.mpr ⟨_, (), _, opt_s.mpr ⟨rfl, plural, added, rfl⟩, ?_⟩
      refine seq_some.mpr ⟨_, (), _, lit_some.mpr ⟨rfl, rfl⟩, ?_⟩
      refine seq_some.mpr ⟨_, (), _, name_some.mpr ⟨name, rfl, key, stops.key, rfl⟩, ?_⟩
      refine seq_some.mpr ⟨_, (), _, options_text all _ ends other, ?_⟩
      exact (opt_space line).mpr ⟨rfl, tail, space, same.symm⟩
    | _ => cases type

theorem commands_some {s s' : Request} {input rest : Bytes} {u : Unit} :
    (alt statsRule <| alt versionRule <| alt destroyRule <| alt flushRule <| alt flushAllRule <|
        alt setRule getRule) s input = (s', some (u, rest)) ↔
      statsRule s input = (s', some (u, rest)) ∨ versionRule s input = (s', some (u, rest)) ∨
      destroyRule s input = (s', some (u, rest)) ∨ flushRule s input = (s', some (u, rest)) ∨
      flushAllRule s input = (s', some (u, rest)) ∨ setRule s input = (s', some (u, rest)) ∨
      getRule s input = (s', some (u, rest)) := by
  have word : ∀ text type, Guarded (ascii text <+: ·) (word text type) :=
    fun text type => guarded_fires text (setType type)
  have named : ∀ text type, Guarded (ascii text <+: ·) (named text type) :=
    fun text type => guarded_seq (word text type) _
  have get : Guarded (Starts [ascii "get"]) getRule := guarded_last (guarded_seq (word _ _) _)
  have set : Guarded (ascii "set " <+: ·) setRule := guarded_seq (named _ _) _
  have sets := choice_some set get (by decide)
  have flushAll := choice_some (word "flush_all" .flushAll) sets.1 (by decide)
  have flush := choice_some (named "flush " .flush) flushAll.1 (by decide)
  have destroy := choice_some (named "delete " .destroy) flush.1 (by decide)
  have version := choice_some (word "version" .version) destroy.1 (by decide)
  have stats := choice_some (word "stats" .stats) version.1 (by decide)
  unfold statsRule versionRule destroyRule flushRule flushAllRule
  rw [stats.2, version.2, destroy.2, flush.2, flushAll.2, sets.2]

theorem denotes_type {command : Bytes} {req : Request} (h : Denotes command req) :
    req.type ≠ .unset := by
  cases h <;> exact fun same => by cases same

theorem startRule_some {req : Request} {line : Bytes} {u : Unit} :
    startRule {} line = (req, some (u, [])) ↔ Accepts line req := by
  have reads : ∀ (ending : Bytes), LineEnd ending →
      ((alt statsRule <| alt versionRule <| alt destroyRule <| alt flushRule <| alt flushAllRule <|
        alt setRule getRule) {} line = (req, some ((), ending)) ↔
        ∃ command, line = command ++ ending ∧ Denotes command req) := by
    intro ending last
    rw [commands_some, reads_stats _ _ _ _ last, reads_version _ _ _ _ last,
      reads_destroy _ _ _ _ last, reads_flush _ _ _ _ last, reads_flushAll _ _ _ _ last,
      reads_set _ _ _ _ last, reads_get _ _ _ _ last]
    constructor
    · rintro (h | h | h | h | h | h | h) <;> obtain ⟨command, same, denotes, -⟩ := h <;>
        exact ⟨command, same, denotes⟩
    · rintro ⟨command, same, denotes⟩
      have known := denotes_type denotes
      cases type : req.type
      case unset => exact absurd type known
      case stats => exact .inl ⟨command, same, denotes, rfl⟩
      case version => exact .inr (.inl ⟨command, same, denotes, rfl⟩)
      case destroy => exact .inr (.inr (.inl ⟨command, same, denotes, rfl⟩))
      case flush => exact .inr (.inr (.inr (.inl ⟨command, same, denotes, rfl⟩)))
      case flushAll => exact .inr (.inr (.inr (.inr (.inl ⟨command, same, denotes, rfl⟩))))
      case set => exact .inr (.inr (.inr (.inr (.inr (.inl ⟨command, same, denotes, rfl⟩)))))
      case get => exact .inr (.inr (.inr (.inr (.inr (.inr ⟨command, same, denotes, rfl⟩)))))
  rw [startRule, seq_some]
  constructor
  · rintro ⟨t, a, ending, first, after⟩
    obtain ⟨rfl, last⟩ := eol_all.mp after
    obtain ⟨command, same, denotes⟩ := (reads ending last).mp first
    exact ⟨command, ending, same, last, denotes⟩
  · rintro ⟨command, ending, same, last, denotes⟩
    exact ⟨req, (), ending, (reads ending last).mpr ⟨command, same, denotes⟩,
      eol_all.mpr ⟨rfl, last⟩⟩

theorem parse_some {line : Bytes} {req : Request} : parse line = some req ↔ Accepts line req := by
  have start : startRule {} line = (req, some ((), [])) ↔ Accepts line req := startRule_some
  rw [← start, parse]
  generalize startRule {} line = result
  obtain ⟨own, _ | ⟨u, _ | ⟨b, rest⟩⟩⟩ := result <;> simp

/-! `request_parser`: the request of its grammar is a member, kept from call to call. -/

structure RequestParser where
  req : Request

def RequestParser.parse (parser : RequestParser) (req : Request) (line : Bytes) :
    RequestParser × Request × Bool :=
  let parser := { parser with req := {} }
  match startRule parser.req line with
  | (own, some (_, [])) => (⟨own⟩, own, true)
  | (own, _) => (⟨own⟩, req, false)

namespace RequestParser

theorem parse_eq (parser : RequestParser) (caller : Request) (line : Bytes) :
    (parser.parse caller line).2 =
      match Request.parse line with
      | some req => (req, true)
      | none => (caller, false) := by
  simp only [RequestParser.parse, Request.parse]
  generalize startRule {} line = result
  obtain ⟨own, _ | ⟨u, _ | ⟨b, rest⟩⟩⟩ := result <;> rfl

/-- The parser accepts exactly its language. On success the caller's request is the
one that the line denotes, whatever the parser or the caller held before; on failure
it is left alone. -/
theorem parse_language (parser : RequestParser) (caller : Request) (line : Bytes) :
    ((parser.parse caller line).2.2 = true ↔ ∃ req, Accepts line req) ∧
    (∀ req, Accepts line req → (parser.parse caller line).2.1 = req) ∧
    ((parser.parse caller line).2.2 = false → (parser.parse caller line).2.1 = caller) := by
  rw [parse_eq]
  simp only [← parse_some]
  cases Request.parse line with
  | none => simp
  | some req => simp

end RequestParser

end Request

end Darner
