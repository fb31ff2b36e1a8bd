import ArmBackend.Json.Reader
import ArmBackend.Json.Writer
import ArmBackend.Proofs.Json.Numerals

/-!
# Written documents are read back

A value that has characters for all its texts and well-formed numerals is read back
from its text.  The proof goes through its tokens: the text is cut into them, whatever
comes behind it, and a reader that expects a value takes them for the document.
-/

namespace ArmBackend.Json

open List

variable {ν : Type}

/-- A value with characters for its texts and numbers of the given kind. -/
inductive Written (kind : ν → Prop) : Json ν → Prop where
  | null : Written kind null
  | bool (truth : Bool) : Written kind (bool truth)
  | number {figure : ν} (holds : kind figure) : Written kind (number figure)
  | text (content : String) : Written kind (ofText content)
  | array {items : List (Json ν)} (written : ∀ item ∈ items, Written kind item) :
      Written kind (array items)
  | members {members : List (String × Json ν)}
      (written : ∀ member ∈ members, Written kind member.2) : Written kind (ofMembers members)

/-- The members of an object as they are kept. -/
def keyed (members : List (String × Json ν)) : List (Option String × Json ν) :=
  members.map fun member => (some member.1, member.2)

theorem keyed_cons (key : String) (value : Json ν) (members : List (String × Json ν)) :
    keyed ((key, value) :: members) = (some key, value) :: keyed members :=
  rfl

theorem ofMembers_eq (members : List (String × Json ν)) :
    ofMembers members = object (keyed members) :=
  rfl

mutual

/-- The tokens of a value. -/
def tokens : Json Numeral → List Token
  | null => [.null]
  | bool truth => [.bool truth]
  | number numeral => [.number numeral]
  | string content => [.string content]
  | array [] => [.openArray, .closeArray]
  | array (item :: rest) => .openArray :: (item.tokens ++ (tokensOfItems rest ++ [.closeArray]))
  | object [] => [.openObject, .closeObject]
  | object ((key, value) :: rest) =>
    .openObject :: .string key :: .colon ::
      (value.tokens ++ (tokensOfMembers rest ++ [.closeObject]))

/-- The items behind the first one. -/
def tokensOfItems : List (Json Numeral) → List Token
  | [] => []
  | item :: rest => .comma :: (item.tokens ++ tokensOfItems rest)

/-- The members behind the first one. -/
def tokensOfMembers : List (Option String × Json Numeral) → List Token
  | [] => []
  | (key, value) :: rest =>
    .comma :: .string key :: .colon :: (value.tokens ++ tokensOfMembers rest)

end

/-! ## Cutting the text -/

variable {char : Char}

namespace Mode

theorem run_nil (done : List Token) (mode : Mode) :
    run done mode [] = mode.finish.map fun tokens => done.reverse ++ tokens :=
  rfl

theorem run_cons (done : List Token) (mode : Mode) (char : Char) (rest : List Char) :
    run done mode (char :: rest) =
      (mode.step char).bind fun next => run (next.1.reverse ++ done) next.2 rest := by
  rw [run]
  cases mode.step char <;> rfl

variable {mode next : Mode} {rest : List Char}

/-- A character that only moves the machine on. -/
theorem run_step (moves : mode.step char = some ([], next)) (done : List Token)
    (rest : List Char) : run done mode (char :: rest) = run done next rest := by
  rw [run_cons, moves]
  rfl

variable {first : Char} {letters : List Char} {token : Token}

/-- A character that completes a token. -/
theorem run_step_token (moves : mode.step char = some ([token], next))
    (done : List Token) (rest : List Char) :
    run done mode (char :: rest) = run (token :: done) next rest := by
  rw [run_cons, moves]
  rfl

theorem run_closed (finish : mode.finish = some [token])
    (after : ∀ char ∈ rest.head?, mode.step char = startAfter (some token) char)
    (done : List Token) : run done mode rest = run (token :: done) between rest := by
  cases rest with
  | nil => simp [run_nil, finish, show between.finish = some [] from rfl]
  | cons char rest =>
    rw [run_cons, run_cons, after char rfl]
    change _ = (start char).bind _
    unfold startAfter
    cases start char with
    | none => rfl
    | some next => simp [append_assoc]

/-- What may stand behind a value: nothing, a comma or the end of the line. -/
def Ends (rest : List Char) : Prop :=
  ∀ char ∈ rest.head?, char = ',' ∨ char = '\n'

namespace Ends

variable {rest : List Char}

theorem isNumberChar (ends : Ends rest) (first : char ∈ rest.head?) :
    Mode.isNumberChar char = false := by
  rcases ends char first with rfl | rfl <;> rfl

theorem isLower (ends : Ends rest) (first : char ∈ rest.head?) :
    char.isLower = false := by
  rcases ends char first with rfl | rfl <;> rfl

end Ends

/-- Characters that the token being read takes in. -/
theorem run_gathered {mode : List Char → Mode} {accepts : Char → Bool}
    (gathers : ∀ before char, accepts char = true →
      (mode before).step char = some ([], mode (char :: before)))
    {chars : List Char} (all : ∀ char ∈ chars, accepts char = true) (done : List Token)
    (before rest : List Char) :
    run done (mode before) (chars ++ rest) = run done (mode (chars.reverse ++ before)) rest := by
  induction chars generalizing before with
  | nil => rfl
  | cons char chars ih =>
    have step := gathers before char (all char mem_cons_self)
    rw [cons_append, run_step step,
      ih (fun other member => all other (mem_cons_of_mem _ member)), reverse_cons,
      append_assoc]
    rfl

theorem start_number (starts : (char.isDigit || char == '-') = true) :
    start char = some ([], number [char]) := by
  have plain : Token.isBlank char = false := by
    by_contra blank
    simp only [Token.isBlank, Bool.not_eq_false, Bool.or_eq_true, beq_iff_eq] at blank
    rcases blank with ((rfl | rfl) | rfl) | rfl <;> cases starts
  have quote : char ≠ '"' := by
    rintro rfl
    cases starts
  rw [start, plain, if_neg Bool.false_ne_true, if_neg quote, if_pos starts]

theorem run_number {numeral : Numeral} (formed : numeral.WellFormed)
    (ends : Ends rest) (done : List Token) :
    run done between (numeral.text true ++ rest) = run (.number numeral :: done) between rest := by
  obtain ⟨first, chars, split, starts⟩ := formed.text_start
  have read : Token.numeral? (chars.reverse ++ [first]).reverse = some numeral := by
    rw [reverse_append, reverse_reverse, reverse_singleton, singleton_append,
      ← split]
    exact formed.numeral?_text
  have all : ∀ char ∈ chars, isNumberChar char = true :=
    fun char member => formed.isNumberChar_text (split ▸ mem_cons_of_mem _ member)
  have start : between.step first = some ([], number [first]) := start_number starts
  rw [split, cons_append, run_step start,
    run_gathered (fun _ _ accepted => by rw [step, if_pos accepted]) all]
  refine run_closed (by rw [finish, read]; rfl) (fun char head => ?_) done
  rw [step, if_neg (by rw [ends.isNumberChar head]; exact Bool.false_ne_true), read]
  rfl

theorem run_word (start : start first = some ([], word [first]))
    (lower : ∀ char ∈ letters, char.isLower = true)
    (spelled : Token.ofWord? (first :: letters) = some token) (ends : Ends rest)
    (done : List Token) :
    run done between (first :: letters ++ rest) = run (token :: done) between rest := by
  have read : Token.ofWord? (letters.reverse ++ [first]).reverse = some token := by
    rwa [reverse_append, reverse_reverse]
  rw [cons_append, run_step (show between.step first = _ from start),
    run_gathered (fun _ _ accepted => by rw [step, if_pos accepted]) lower]
  refine run_closed (by rw [finish, read]; rfl) (fun char head => ?_) done
  rw [step, if_neg (by rw [ends.isLower head]; exact Bool.false_ne_true), read]

/-! ### Strings -/

/-- The piece denotes the character. -/
def Denotes (piece : Piece) (char : Char) : Prop :=
  ∀ rest, Piece.resolve (piece :: rest) = (Piece.resolve rest).map (char :: ·)

theorem denotes_char (char : Char) : Denotes (.char char) char :=
  fun _ => rfl

theorem denotes_unit (low : char.toNat < 0xd800) : Denotes (.unit char.toNat) char := by
  intro rest
  have first : Piece.isHighSurrogate char.toNat = false := by
    simp only [Piece.isHighSurrogate, Bool.and_eq_false_iff, decide_eq_false_iff_not]
    omega
  have second : Piece.isLowSurrogate char.toNat = false := by
    simp only [Piece.isLowSurrogate, Bool.and_eq_false_iff, decide_eq_false_iff_not]
    omega
  rw [Piece.resolve.eq_def]
  simp only [first, second, Char.ofNat_toNat, Bool.false_eq_true, if_false]

/-- The characters, read inside a string, add the piece. -/
def Spells (text : List Char) (piece : Piece) : Prop :=
  ∀ done pieces rest,
    run done (string pieces) (text ++ rest) = run done (string (piece :: pieces)) rest

theorem spells_escaped {letter : Char} (escaped : escaped? letter = some char)
    (plain : letter ≠ 'u') : Spells ['\\', letter] (.char char) := by
  intro done pieces rest
  have start : (string pieces).step '\\' = some ([], escape pieces) := rfl
  have finish : (escape pieces).step letter = some ([], string (.char char :: pieces)) := by
    rw [step, if_neg plain, escaped]
    rfl
  rw [cons_append, run_step start, cons_append, run_step finish]
  rfl

theorem unitText_toList : ∀ code < 32, (unitText code).toList =
    ['\\', 'u', '0', '0', Nat.digitChar (code / 16), Nat.digitChar (code % 16)] := by
  decide

theorem hexDigit?_digitChar : ∀ digit < 16, hexDigit? (Nat.digitChar digit) = some digit := by
  decide

theorem spells_unit {code : Nat} (control : code < 32) :
    Spells (unitText code).toList (.unit code) := by
  intro done pieces rest
  have start : (string pieces).step '\\' = some ([], escape pieces) := rfl
  have mark : (escape pieces).step 'u' = some ([], unit pieces []) := rfl
  have first : (unit pieces []).step '0' = some ([], unit pieces [0]) := rfl
  have second : (unit pieces [0]).step '0' = some ([], unit pieces [0, 0]) := rfl
  have third : (unit pieces [0, 0]).step (Nat.digitChar (code / 16)) =
      some ([], unit pieces [code / 16, 0, 0]) := by
    simp only [step, hexDigit?_digitChar (code / 16) (by omega)]
  have last : (unit pieces [code / 16, 0, 0]).step (Nat.digitChar (code % 16)) =
      some ([], string (.unit code :: pieces)) := by
    simp only [step, hexDigit?_digitChar (code % 16) (by omega)]
    rw [show ((0 * 16 + 0) * 16 + code / 16) * 16 + code % 16 = code by omega]
  rw [unitText_toList code control, cons_append, run_step start, cons_append,
    run_step mark, cons_append, run_step first, cons_append, run_step second,
    cons_append, run_step third, cons_append, run_step last]
  rfl

theorem spells_plain (quote : char ≠ '"') (backslash : char ≠ '\\') (printed : ¬ char.toNat < 32) :
    Spells [char] (.char char) := by
  intro done pieces rest
  have step : (string pieces).step char = some ([], string (.char char :: pieces)) := by
    rw [step, if_neg quote, if_neg backslash, if_neg printed]
  rw [cons_append, run_step step]
  rfl

theorem spells_stringChar (char : Char) :
    ∃ piece, Denotes piece char ∧ Spells (stringChar char).toList piece := by
  have coded : ∀ {code : Nat}, char.toNat = code → Char.ofNat code = char :=
    fun same => same ▸ Char.ofNat_toNat char
  unfold stringChar
  split_ifs with quote backslash back feed line carriage tab control
  · subst quote
    exact ⟨_, denotes_char _, spells_escaped rfl (by decide)⟩
  · subst backslash
    exact ⟨_, denotes_char _, spells_escaped rfl (by decide)⟩
  · exact ⟨_, denotes_char _, spells_escaped (coded back ▸ rfl) (by decide)⟩
  · exact ⟨_, denotes_char _, spells_escaped (coded feed ▸ rfl) (by decide)⟩
  · subst line
    exact ⟨_, denotes_char _, spells_escaped rfl (by decide)⟩
  · subst carriage
    exact ⟨_, denotes_char _, spells_escaped rfl (by decide)⟩
  · subst tab
    exact ⟨_, denotes_char _, spells_escaped rfl (by decide)⟩
  · exact ⟨_, denotes_unit (by omega), spells_unit control⟩
  · rw [String.toList_singleton]
    exact ⟨_, denotes_char _, spells_plain quote backslash control⟩

theorem run_stringChars (chars : List Char) : ∃ pieces, Piece.resolve pieces = some chars ∧
    ∀ done before rest,
      run done (string before) (chars.flatMap (fun char => (stringChar char).toList) ++ rest) =
        run done (string (pieces.reverse ++ before)) rest := by
  induction chars with
  | nil => exact ⟨[], rfl, fun _ _ _ => rfl⟩
  | cons char chars ih =>
    obtain ⟨pieces, resolved, later⟩ := ih
    obtain ⟨piece, denotes, spells⟩ := spells_stringChar char
    refine ⟨piece :: pieces, by rw [denotes, resolved]; rfl, fun done before rest => ?_⟩
    rw [flatMap_cons, append_assoc, spells, later, reverse_cons,
      append_assoc]
    rfl

theorem run_stringText (content : String) (done : List Token) (rest : List Char) :
    run done between ((stringText content).toList ++ rest) =
      run (.string (some content) :: done) between rest := by
  obtain ⟨pieces, resolved, runs⟩ := run_stringChars content.toList
  have start : between.step '"' = some ([], string []) := rfl
  have finish : (string pieces.reverse).step '"' = some ([.string (some content)], between) := by
    rw [step, if_pos rfl, reverse_reverse, Token.ofPieces, resolved, Option.map_some,
      String.ofList_toList]
  have chars : (stringText content).toList =
      '"' :: (content.toList.flatMap (fun char => (stringChar char).toList) ++ ['"']) := by
    simp [stringText, String.toList_join, flatMap_map]
  rw [chars, cons_append, append_assoc, run_step start, runs, append_nil,
    singleton_append, run_step_token finish]

/-! ### Whole values -/

/-- The text, with the given rest behind it, is cut into the tokens. -/
def Cuts (rest : List Char) (text : String) (tokens : List Token) : Prop :=
  ∀ done, run done between (text.toList ++ rest) = run (tokens.reverse ++ done) between rest

namespace Cuts

variable {rest : List Char}

theorem append {first second : String} {tokens more : List Token}
    (one : Cuts (second.toList ++ rest) first tokens) (two : Cuts rest second more) :
    Cuts rest (first ++ second) (tokens ++ more) := by
  intro done
  rw [String.toList_append, append_assoc, one, two, reverse_append, append_assoc]

theorem mark {text : String} (single : text.toList = [char])
    (mark : start char = some ([token], between)) : Cuts rest text [token] := by
  intro done
  rw [single, singleton_append, run_step_token (show between.step char = _ from mark)]
  rfl

theorem colon : Cuts rest ": " [.colon] := by
  intro done
  have mark : between.step ':' = some ([.colon], between) := rfl
  have blank : between.step ' ' = some ([], between) := rfl
  rw [show ": ".toList = [':', ' '] from rfl, cons_append, run_step_token mark,
    cons_append, run_step blank]
  rfl

theorem blanks (count : Nat) : Cuts rest (String.ofList (List.replicate count ' ')) [] := by
  intro done
  have blank : between.step ' ' = some ([], between) := rfl
  rw [String.toList_ofList]
  induction count with
  | zero => rfl
  | succ count ih => rwa [replicate_succ, cons_append, run_step blank]

theorem newline (level : Nat) : Cuts rest (newline level) [] := by
  have start : ∀ {rest}, Cuts rest "\n" [] := by
    intro rest done
    have blank : between.step '\n' = some ([], between) := rfl
    rw [show "\n".toList = ['\n'] from rfl, singleton_append, run_step blank]
    rfl
  exact start.append (blanks _)

theorem word (ends : Ends rest) {text : String} (chars : text.toList = first :: letters)
    (start : start first = some ([], .word [first])) (lower : ∀ char ∈ letters, char.isLower = true)
    (spelled : Token.ofWord? (first :: letters) = some token) : Cuts rest text [token] := by
  intro done
  rw [chars]
  exact run_word start lower spelled ends done

theorem text (content : String) : Cuts rest (stringText content) [.string (some content)] :=
  fun done => run_stringText content done rest

end Cuts

namespace Ends

variable {rest : List Char}

theorem nil : Ends [] :=
  fun _ head => nomatch head

theorem newline (level : Nat) : Ends ((newline level).toList ++ rest) := by
  intro char head
  rw [Json.newline, String.toList_append] at head
  exact .inr (Option.some.inj head).symm

theorem items (ends : Ends rest) (level : Nat) (items : List (Json Numeral)) :
    Ends ((prettyItems level items).toList ++ rest) := by
  cases items with
  | nil => exact ends
  | cons item items =>
    intro char head
    simp only [prettyItems, String.toList_append, append_assoc] at head
    exact .inl (Option.some.inj head).symm

theorem members (ends : Ends rest) (level : Nat) (members : List (Option String × Json Numeral)) :
    Ends ((prettyMembers level members).toList ++ rest) := by
  cases members with
  | nil => exact ends
  | cons member members =>
    intro char head
    simp only [prettyMembers, String.toList_append, append_assoc] at head
    exact .inl (Option.some.inj head).symm

end Ends

/-- The text of a value is cut into its tokens at every level. -/
def Cut (json : Json Numeral) : Prop :=
  ∀ rest, Ends rest → ∀ level, Cuts rest (json.pretty level) json.tokens

theorem cuts_items {items : List (Json Numeral)} (cut : ∀ item ∈ items, Cut item)
    (ends : Ends rest) (level : Nat) :
    Cuts rest (prettyItems level items) (tokensOfItems items) := by
  induction items with
  | nil => exact fun _ => rfl
  | cons item items ih =>
    have comma : ∀ {rest}, Cuts rest "," [.comma] := Cuts.mark rfl rfl
    have first := cut item mem_cons_self _ (ends.items level items) level
    have later := ih fun other member => cut other (mem_cons_of_mem _ member)
    rw [prettyItems, tokensOfItems]
    have all := ((comma.append (.newline level)).append first).append later
    simpa [append_assoc] using all

theorem cut_array {items : List (Json Numeral)} (cut : ∀ item ∈ items, Cut item) :
    Cut (array items) := by
  intro rest _ level
  have opening : ∀ {rest}, Cuts rest "[" [.openArray] := Cuts.mark rfl rfl
  have closing : Cuts rest "]" [.closeArray] := Cuts.mark rfl rfl
  cases items with
  | nil =>
    rw [pretty, tokens]
    exact opening.append closing
  | cons item items =>
    have last : Ends ((Json.newline level).toList ++ ("]".toList ++ rest)) := Ends.newline level
    have first := cut item mem_cons_self _ (last.items (level + 1) items) (level + 1)
    have later := cuts_items (fun other member => cut other (mem_cons_of_mem _ member)) last
      (level + 1)
    rw [pretty, tokens]
    have all := ((((opening.append (.newline (level + 1))).append first).append later).append
      (.newline level)).append closing
    simpa [append_assoc] using all

theorem cuts_member (key : String) {value : Json Numeral} (cut : Cut value)
    (ends : Ends rest) (level : Nat) :
    Cuts rest (stringText key ++ ": " ++ value.pretty level)
      (.string (some key) :: .colon :: value.tokens) :=
  ((Cuts.text key).append .colon).append (cut _ ends level)

theorem cuts_members {members : List (String × Json Numeral)}
    (cut : ∀ member ∈ members, Cut member.2) (ends : Ends rest) (level : Nat) :
    Cuts rest (prettyMembers level (keyed members)) (tokensOfMembers (keyed members)) := by
  induction members with
  | nil => exact fun _ => rfl
  | cons member members ih =>
    obtain ⟨key, value⟩ := member
    have comma : ∀ {rest}, Cuts rest "," [.comma] := Cuts.mark rfl rfl
    have first := cuts_member key (cut (key, value) mem_cons_self)
      (ends.members level (keyed members)) level
    have later := ih fun other member => cut other (mem_cons_of_mem _ member)
    rw [keyed_cons, prettyMembers, tokensOfMembers]
    have all := ((comma.append (.newline level)).append first).append later
    simpa [append_assoc, String.append_assoc] using all

theorem cut_members {members : List (String × Json Numeral)}
    (cut : ∀ member ∈ members, Cut member.2) : Cut (ofMembers members) := by
  intro rest _ level
  have opening : ∀ {rest}, Cuts rest "\x7b" [.openObject] := Cuts.mark rfl rfl
  have closing : Cuts rest "\x7d" [.closeObject] := Cuts.mark rfl rfl
  cases members with
  | nil => exact opening.append closing
  | cons member members =>
    obtain ⟨key, value⟩ := member
    have last : Ends ((Json.newline level).toList ++ ("\x7d".toList ++ rest)) :=
      Ends.newline level
    have first := cuts_member key (cut (key, value) mem_cons_self)
      (last.members (level + 1) (keyed members)) (level + 1)
    have later := cuts_members (fun other member => cut other (mem_cons_of_mem _ member))
      last (level + 1)
    rw [ofMembers_eq, keyed_cons, pretty, tokens]
    have all := ((((opening.append (.newline (level + 1))).append first).append later).append
      (.newline level)).append closing
    simpa [append_assoc, String.append_assoc] using all

theorem Written.cut {json : Json Numeral} (written : Written Numeral.WellFormed json) :
    Cut json := by
  induction written with
  | null =>
    have chars : "null".toList = 'n' :: ['u', 'l', 'l'] := rfl
    exact fun _ ends _ => .word ends chars rfl (all_eq_true.mp rfl) rfl
  | bool truth =>
    have yes : "true".toList = 't' :: ['r', 'u', 'e'] := rfl
    have no : "false".toList = 'f' :: ['a', 'l', 's', 'e'] := rfl
    cases truth with
    | true => exact fun _ ends _ => .word ends yes rfl (all_eq_true.mp rfl) rfl
    | false => exact fun _ ends _ => .word ends no rfl (all_eq_true.mp rfl) rfl
  | number formed =>
    intro rest ends level done
    rw [pretty, String.toList_ofList]
    exact run_number formed ends done
  | text content => exact fun _ _ _ => .text content
  | array _ ih => exact cut_array ih
  | members _ ih => exact cut_members ih

end Mode

variable {json : Json Numeral}

theorem tokens?_text (written : Written Numeral.WellFormed json) :
    tokens? json.text.toList = some json.tokens := by
  have cut := Mode.Written.cut written [] .nil 0 []
  rw [append_nil, append_nil] at cut
  rw [tokens?, text, cut, Mode.run_nil]
  simp [Mode.finish]

/-! ## Reading the tokens -/

namespace Reading

theorem run_cons (reading : Reading) (token : Token) (rest : List Token) :
    reading.run (token :: rest) = (reading.feed token).bind fun next => next.run rest := by
  rw [run]
  cases reading.feed token <;> rfl

/-- A token that the reading takes. -/
theorem run_feed {reading next : Reading} {token : Token} (feeds : reading.feed token = some next)
    (rest : List Token) : reading.run (token :: rest) = next.run rest := by
  rw [run_cons, feeds]
  rfl

/-- Where a value is due, the tokens deliver it. -/
def Delivers (json : Json Numeral) : Prop :=
  ∀ stack rest, (inside stack .value).run (json.tokens ++ rest) = (deliver json stack).run rest

theorem tokens_start (json : Json Numeral) :
    ∃ first rest, json.tokens = first :: rest ∧ first ≠ .closeArray := by
  cases json with
  | array items => cases items <;> exact ⟨_, _, rfl, nofun⟩
  | object members => cases members <;> exact ⟨_, _, rfl, nofun⟩
  | _ => exact ⟨_, _, rfl, nofun⟩

theorem run_itemOrClose (json : Json Numeral) (stack : List Frame) (rest : List Token) :
    (inside stack .itemOrClose).run (json.tokens ++ rest) =
      (inside stack .value).run (json.tokens ++ rest) := by
  obtain ⟨first, more, split, other⟩ := tokens_start json
  rw [split, cons_append, run_cons, run_cons]
  simp only [feed, if_neg other]

variable {members : List (String × Json Numeral)} {items : List (Json Numeral)}

theorem run_items (delivers : ∀ item ∈ items, Delivers item) (before : List (Json Numeral))
    (stack : List Frame) (rest : List Token) :
    (inside (.array before :: stack) .separator).run (tokensOfItems items ++ rest) =
      (inside (.array (items.reverse ++ before) :: stack) .separator).run rest := by
  induction items generalizing before with
  | nil => rfl
  | cons item items ih =>
    have comma : (inside (.array before :: stack) .separator).feed .comma =
        some (inside (.array before :: stack) .value) := rfl
    rw [tokensOfItems, cons_append, run_feed comma, append_assoc,
      delivers item mem_cons_self, deliver,
      ih (fun other member => delivers other (mem_cons_of_mem _ member)),
      reverse_cons, append_assoc]
    rfl

theorem delivers_array (delivers : ∀ item ∈ items, Delivers item) : Delivers (array items) := by
  intro stack rest
  cases items with
  | nil => rfl
  | cons item items =>
    have opening : (inside stack .value).feed .openArray =
        some (inside (.array [] :: stack) .itemOrClose) := rfl
    have closing : (inside (.array (items.reverse ++ [item]) :: stack) .separator).feed
        .closeArray = some (deliver (array (item :: items)) stack) := by
      simp [feed, separator, close]
    rw [tokens, cons_append, run_feed opening, append_assoc, run_itemOrClose,
      delivers item mem_cons_self, deliver, append_assoc,
      run_items (fun other member => delivers other (mem_cons_of_mem _ member)),
      singleton_append, run_feed closing]

/-- The tokens of a member, where a key is due. -/
theorem run_member {value : Json Numeral} (delivers : Delivers value) (key : String)
    (before : List (Option String × Json Numeral)) (held : Option String) (stack : List Frame)
    (rest : List Token) :
    (inside (.object before held :: stack) .key).run
        (.string (some key) :: .colon :: (value.tokens ++ rest)) =
      (inside (.object ((some key, value) :: before) none :: stack) .separator).run rest := by
  have first : (inside (.object before held :: stack) .key).feed (.string (some key)) =
      some (inside (.object before (some key) :: stack) .colon) := rfl
  have colon : (inside (.object before (some key) :: stack) .colon).feed .colon =
      some (inside (.object before (some key) :: stack) .value) := rfl
  rw [run_feed first, run_feed colon, delivers, deliver]

theorem run_members (delivers : ∀ member ∈ members, Delivers member.2)
    (before : List (Option String × Json Numeral)) (stack : List Frame) (rest : List Token) :
    (inside (.object before none :: stack) .separator).run
        (tokensOfMembers (keyed members) ++ rest) =
      (inside (.object ((keyed members).reverse ++ before) none :: stack) .separator).run rest := by
  induction members generalizing before with
  | nil => rfl
  | cons member members ih =>
    obtain ⟨key, value⟩ := member
    have comma : (inside (.object before none :: stack) .separator).feed .comma =
        some (inside (.object before none :: stack) .key) := rfl
    rw [keyed_cons, tokensOfMembers, cons_append, run_feed comma, cons_append, cons_append,
      append_assoc, run_member (delivers (key, value) mem_cons_self),
      ih (fun other member => delivers other (mem_cons_of_mem _ member)), reverse_cons,
      append_assoc]
    rfl

theorem delivers_members (delivers : ∀ member ∈ members, Delivers member.2) :
    Delivers (ofMembers members) := by
  intro stack rest
  cases members with
  | nil => rfl
  | cons member members =>
    obtain ⟨key, value⟩ := member
    have opening : (inside stack .value).feed .openObject =
        some (inside (.object [] none :: stack) .keyOrClose) := rfl
    have closing : (inside (.object ((keyed members).reverse ++ [(some key, value)]) none ::
        stack) .separator).feed .closeObject =
          some (deliver (object ((some key, value) :: keyed members)) stack) := by
      simp [feed, separator, close]
    have start : ∀ more, (inside (.object [] none :: stack) .keyOrClose).run
        (.string (some key) :: more) =
          (inside (.object [] none :: stack) .key).run (.string (some key) :: more) :=
      fun _ => rfl
    rw [ofMembers_eq, keyed_cons, tokens, cons_append, run_feed opening, cons_append, cons_append,
      append_assoc, start, run_member (delivers (key, value) mem_cons_self),
      append_assoc,
      run_members (fun other member => delivers other (mem_cons_of_mem _ member)),
      singleton_append, run_feed closing]

theorem delivers {json : Json Numeral} (written : Written Numeral.WellFormed json) :
    Delivers json := by
  induction written with
  | array _ ih => exact delivers_array ih
  | members _ ih => exact delivers_members ih
  | _ => exact fun _ _ => rfl

end Reading

/-- A written document is read back from its text. -/
theorem parse?_text (written : Written Numeral.WellFormed json) :
    parse? json.text = some json := by
  have read := Reading.delivers written [] []
  rw [append_nil] at read
  rw [parse?, tokens?_text written]
  simp only [read, Reading.deliver, Reading.run]

end ArmBackend.Json
