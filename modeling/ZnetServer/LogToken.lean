import Mathlib.Data.List.DropRight
import ZnetServer.LogPattern

set_option autoImplicit false

/- The language of log patterns: every pattern is the print of one list of tokens, and what
`LogFormatter::init` makes of it is that list's meaning. -/
namespace ZnetServer.LogFormatter

/-- A character that the inner loop passes over inside a name. -/
def inName (c : Char) : Bool := c.isAlpha || c == '}'

inductive Token where
  | text (c : Char)
  /-- A `%` in front of another one, which is read again. -/
  | escape
  | field (name : List Char)
  | formatted (name fmt : List Char)
  /-- A format that no brace closes. -/
  | unclosed (name fmt : List Char)
  deriving DecidableEq

namespace Token

def print : Token → List Char
  | text c => [c]
  | escape => ['%']
  | field name => '%' :: name
  | formatted name fmt => '%' :: (name ++ '{' :: (fmt ++ ['}']))
  | unclosed name fmt => '%' :: (name ++ '{' :: fmt)

/-- What the token is in front of the rest of the pattern. -/
def Before (rest : List Char) : Token → Prop
  | text c => c ≠ '%'
  | escape => rest.head? = some '%'
  | field name => (∀ c ∈ name, inName c = true) ∧ (∀ c ∈ rest.head?, endsName c = true) ∧
      (name = [] → rest.head? ≠ some '%')
  | formatted name fmt => (∀ c ∈ name, inName c = true) ∧ '}' ∉ fmt
  | unclosed name fmt => (∀ c ∈ name, inName c = true) ∧ '}' ∉ fmt ∧ rest = []

/-- The character that the token adds to `literal_str`. -/
def char : Token → Option Char
  | text c => some c
  | escape => some '%'
  | field _ | formatted _ _ | unclosed _ _ => none

def isText (token : Token) : Bool := token.char.isSome

/-- A field's item, and a text token's text as an item. -/
def item : Token → FormatItem
  | text c => .string (String.singleton c)
  | escape => .string (String.singleton '%')
  | field name => .ofField (String.ofList name) ""
  | formatted name fmt => .ofField (String.ofList name) (String.ofList fmt)
  | unclosed _ _ => .string "<<pattern_error>>"

theorem item_of_char {token : Token} {c : Char} (text : token.char = some c) :
    token.item = .string (String.singleton c) := by
  cases token <;> cases text <;> rfl

end Token

def printTokens (tokens : List Token) : List Char := tokens.flatMap Token.print

/-- Each token stands in front of what follows it. -/
def Formed : List Token → Prop
  | [] => True
  | token :: rest => token.Before (printTokens rest) ∧ Formed rest

/-- The token that a `%` begins, and what is behind it. -/
def percent (rest : List Char) : Token × List Char :=
  if rest.head? = some '%' then (.escape, rest)
  else
    let name := rest.takeWhile inName
    match rest.dropWhile inName with
    | '{' :: body =>
      match body.dropWhile (· ≠ '}') with
      | [] => (.unclosed name body, [])
      | _ :: after => (.formatted name (body.takeWhile (· ≠ '}')), after)
    | after => (.field name, after)

theorem inName_iff (c : Char) : inName c = true ↔ endsName c = false ∧ c ≠ '{' := by
  by_cases opens : c = '{'
  · subst opens
    decide
  · by_cases closes : c = '}' <;> simp [inName, endsName, opens, closes]

/-- The `%` and what follows it are the token and what is behind the token. -/
theorem percent_reads (rest : List Char) :
    '%' :: rest = (percent rest).1.print ++ (percent rest).2 ∧
      (percent rest).1.Before (percent rest).2 := by
  unfold percent
  split
  · rename_i double
    exact ⟨rfl, double⟩
  · rename_i single
    have whole : rest.takeWhile inName ++ rest.dropWhile inName = rest :=
      List.takeWhile_append_dropWhile
    have named : ∀ c ∈ rest.takeWhile inName, inName c = true := fun c => List.mem_takeWhile_imp
    generalize rest.takeWhile inName = name at whole named
    split
    · rename_i body behind
      have closed : body.takeWhile (· ≠ '}') ++ body.dropWhile (· ≠ '}') = body :=
        List.takeWhile_append_dropWhile
      have inside : '}' ∉ body.takeWhile (· ≠ '}') := fun member => by
        simpa using List.mem_takeWhile_imp member
      have head := List.head?_dropWhile_not (· ≠ '}') body
      generalize body.takeWhile (· ≠ '}') = fmt at closed inside
      rw [behind] at whole
      split
      · rename_i nothing
        rw [nothing, List.append_nil] at closed
        rw [closed] at inside
        exact ⟨by simp [Token.print, whole], named, inside, rfl⟩
      · rename_i c after closing
        rw [closing] at head closed
        obtain rfl : c = '}' := by simpa using head
        exact ⟨by simp [Token.print, closed, whole], named, inside⟩
    · rename_i after unopened
      have head := List.head?_dropWhile_not inName rest
      refine ⟨by simp [Token.print, whole], named, fun c first => ?_, fun empty => ?_⟩
      · rw [Option.mem_def] at first
        rw [first] at head
        have other : c ≠ '{' := by
          rintro rfl
          obtain ⟨body, opened⟩ := List.head?_eq_some_iff.mp first
          exact unopened body opened
        by_contra stays
        have passed := (inName_iff c).mpr ⟨by simpa using stays, other⟩
        simp [passed] at head
      · rw [empty, List.nil_append] at whole
        rw [whole]
        exact single

theorem percent_le (rest : List Char) : (percent rest).2.length ≤ rest.length := by
  have length := congrArg List.length (percent_reads rest).1
  have positive : 0 < (percent rest).1.print.length := by
    cases (percent rest).1 <;> simp [Token.print]
  rw [List.length_cons, List.length_append] at length
  omega

/-- The tokens of a pattern. -/
def tokens : List Char → List Token
  | [] => []
  | c :: rest =>
    if c ≠ '%' then .text c :: tokens rest
    else (percent rest).1 :: tokens (percent rest).2
termination_by pattern => pattern.length
decreasing_by
  · exact Nat.lt_succ_self _
  · exact Nat.lt_succ_of_le (percent_le rest)

/-- The items: the text in front of a field is one of them, the text behind the last is lost. -/
def meaning (literal : List Char) : List Token → List FormatItem
  | [] => []
  | token :: rest => match token.char with
    | some c => meaning (literal ++ [c]) rest
    | none => (if literal = [] then [] else [.string (String.ofList literal)]) ++
        token.item :: meaning [] rest

theorem print_tokens (pattern : List Char) : printTokens (tokens pattern) = pattern := by
  fun_induction tokens pattern with
  | case1 => rfl
  | case2 c rest text ih =>
      exact congrArg (c :: ·) ih
  | case3 c rest percent_sign ih =>
      obtain rfl : c = '%' := by simpa using percent_sign
      rw [printTokens, List.flatMap_cons, (percent_reads rest).1]
      exact congrArg ((percent rest).1.print ++ ·) ih

theorem tokens_formed (pattern : List Char) : Formed (tokens pattern) := by
  fun_induction tokens pattern with
  | case1 => trivial
  | case2 c rest text ih => exact ⟨text, ih⟩
  | case3 c rest percent_sign ih =>
      refine ⟨?_, ih⟩
      rw [print_tokens]
      exact (percent_reads rest).2

section Reading

variable {pattern : List Char} {i : Nat} {vec : List Piece} {literal rest name fmt : List Char}

/-- The inner loop in front of a name. -/
theorem scanField_name (ahead : pattern.drop (i + 1) = name ++ rest)
    (named : ∀ c ∈ name, inName c = true) : scanField pattern i (.start i) =
      scanField pattern i { FieldScan.start i with j := i + 1 + name.length } := by
  apply scanField_skip (s := .start i) ahead
  intro c member
  have passes := (inName_iff c).mp (named c member)
  simp [FieldScan.start, passes.1, passes.2]

/-- The inner loop behind a format, with the name it has kept. -/
theorem scanField_body (ahead : pattern.drop (i + 1) = name ++ '{' :: (fmt ++ rest))
    (named : ∀ c ∈ name, inName c = true) (inside : '}' ∉ fmt) :
    scanField pattern i (.start i) = scanField pattern i
      ⟨i + 1 + name.length + 1 + fmt.length, .format, i + 1 + name.length + 1, name, []⟩ := by
  have opened := drop_of_ahead ahead
  have kept : substr pattern (i + 1) (i + 1 + name.length - i - 1) = name := by
    rw [show i + 1 + name.length - i - 1 = name.length by omega]
    exact substr_ahead ahead
  rw [scanField_name ahead named, scanField_open opened rfl]
  -- The brace is passed once more, now as part of the format.
  have passed : pattern.drop (i + 1 + name.length) = ('{' :: fmt) ++ rest := opened
  rw [scanField_skip passed]
  · rw [show i + 1 + name.length + 1 + fmt.length = i + 1 + name.length + ('{' :: fmt).length by
      rw [List.length_cons]
      omega]
    simp only [FieldScan.start, kept]
  · intro c member
    have other : c ≠ '}' := by
      rintro rfl
      exact inside ((List.mem_cons.mp member).resolve_left (by decide))
    simp [other]

theorem head_of_name (named : ∀ c ∈ name, inName c = true)
    (single : name = [] → rest.head? ≠ some '%') : (name ++ rest).head? ≠ some '%' := by
  cases name with
  | nil => exact single rfl
  | cons c name =>
      intro same
      have letter := named c List.mem_cons_self
      rw [Option.some.inj same] at letter
      cases letter

theorem scan_escape (ahead : pattern.drop i = '%' :: rest) (double : rest.head? = some '%') :
    scan pattern i vec literal = scan pattern (i + 1) vec (literal ++ ['%']) := by
  have inside := inside_of_ahead ahead
  have next : pattern[i + 1]? = some '%' := by
    rw [← List.head?_drop, drop_succ_of_ahead ahead]
    exact double
  rw [scan, dif_pos inside, getElem_of_ahead ahead inside, if_neg (by simp), if_pos next]

theorem scan_field (ahead : pattern.drop i = '%' :: (name ++ rest))
    (before : (Token.field name).Before rest) : scan pattern i vec literal =
      scan pattern (i + 1 + name.length) (flush vec literal ++ [⟨name, [], true⟩]) [] := by
  obtain ⟨named, stops, single⟩ := before
  have behind := drop_succ_of_ahead ahead
  have whole : substr pattern (i + 1) (i + 1 + name.length - i - 1) = name := by
    rw [show i + 1 + name.length - i - 1 = name.length by omega]
    exact substr_ahead behind
  rw [scan_percent ahead (head_of_name named single), scanField_name behind named]
  cases rest with
  | nil =>
      have inside := inside_of_ahead ahead
      have length : pattern.length = i + 1 + name.length := by
        have rest := congrArg List.length behind
        rw [List.append_nil, List.length_drop] at rest
        omega
      rw [scanField_end (by simp only; omega), scan_end (by simp only; omega),
        scan_end (by omega)]
      by_cases empty : name = []
      · simp [FieldScan.piece, FieldScan.start, empty]
      · have positive := List.length_pos_iff.mpr empty
        have some_name : i + 1 + name.length - i - 1 > 0 := by omega
        simp only [FieldScan.piece, FieldScan.start, length, whole, some_name, and_self,
          reduceCtorEq, ↓reduceIte]
  | cons c rest =>
      have next := drop_of_ahead behind
      have inside := inside_of_ahead next
      rw [scanField_stop next rfl (stops c rfl)]
      simp only [FieldScan.piece, FieldScan.start, whole, reduceCtorEq, ↓reduceIte]
      rw [if_neg (by omega), show i + 1 + name.length - 1 + 1 = i + 1 + name.length by omega]

theorem scan_closed (ahead : pattern.drop i = '%' :: (name ++ '{' :: (fmt ++ '}' :: rest)))
    (before : (Token.formatted name fmt).Before rest) : scan pattern i vec literal =
      scan pattern (i + 1 + name.length + 1 + fmt.length + 1)
        (flush vec literal ++ [⟨name, fmt, true⟩]) [] := by
  obtain ⟨named, inside⟩ := before
  have behind := drop_succ_of_ahead ahead
  have body := drop_succ_of_ahead (drop_of_ahead behind)
  have closing := drop_of_ahead body
  have bound := inside_of_ahead closing
  have format : substr pattern (i + 1 + name.length + 1)
      (i + 1 + name.length + 1 + fmt.length - (i + 1 + name.length + 1)) = fmt := by
    rw [Nat.add_sub_cancel_left]
    exact substr_ahead body
  rw [scan_percent ahead (head_of_name named fun _ => by simp), scanField_body behind named inside,
    scanField_close closing rfl]
  simp only [FieldScan.piece, format, reduceCtorEq, ↓reduceIte]
  rw [if_neg (by omega)]

theorem scan_unclosed (ahead : pattern.drop i = '%' :: (name ++ '{' :: fmt))
    (named : ∀ c ∈ name, inName c = true) (inside : '}' ∉ fmt) : scan pattern i vec literal =
      (flush vec literal ++ [⟨"<<pattern_error>>".toList, [], false⟩], []) := by
  have behind := drop_succ_of_ahead ahead
  have body : pattern.drop (i + 1) = name ++ '{' :: (fmt ++ []) := by
    rw [List.append_nil]
    exact behind
  have bound := inside_of_ahead ahead
  have length := congrArg List.length behind
  simp only [List.length_drop, List.length_append, List.length_cons] at length
  rw [scan_percent ahead (head_of_name named fun _ => by simp), scanField_body body named inside,
    scanField_end (by simp only; omega), scan_end (by simp only; omega)]
  simp only [FieldScan.piece, ↓reduceIte]

end Reading

theorem meaning_text {token : Token} {c : Char} (text : token.char = some c) (literal : List Char)
    (ts : List Token) : meaning literal (token :: ts) = meaning (literal ++ [c]) ts := by
  rw [meaning, text]

theorem meaning_field {token : Token} (isField : token.char = none) (literal : List Char)
    (ts : List Token) : meaning literal (token :: ts) =
      (if literal = [] then [] else [.string (String.ofList literal)]) ++
        token.item :: meaning [] ts := by
  rw [meaning, isField]

theorem flush_items (vec : List Piece) (literal : List Char) :
    (flush vec literal).map Piece.item = vec.map Piece.item ++
      if literal = [] then [] else [.string (String.ofList literal)] := by
  unfold flush
  split <;> simp [Piece.text, Piece.item]

/-- The outer loop in front of formed tokens. -/
theorem scan_meaning {pattern : List Char} {ts : List Token} (formed : Formed ts) (i : Nat)
    (vec : List Piece) (literal : List Char) (ahead : pattern.drop i = printTokens ts) :
    (scan pattern i vec literal).1.map Piece.item = vec.map Piece.item ++ meaning literal ts := by
  induction ts generalizing i vec literal with
  | nil =>
      rw [scan_end (List.drop_eq_nil_iff.mp ahead), meaning, List.append_nil]
  | cons token ts ih =>
      obtain ⟨before, formed⟩ := formed
      rw [printTokens, List.flatMap_cons, ← printTokens] at ahead
      cases token with
      | text c =>
          have plain : '%' ∉ [c] := fun same => before (List.mem_singleton.mp same).symm
          rw [scan_text ahead plain, meaning_text rfl]
          exact ih formed _ _ _ (drop_of_ahead ahead)
      | escape =>
          rw [scan_escape ahead before, meaning_text rfl]
          exact ih formed _ _ _ (drop_succ_of_ahead ahead)
      | field name =>
          rw [scan_field ahead before,
            ih formed _ _ _ (drop_of_ahead (drop_succ_of_ahead ahead)), List.map_append,
            flush_items, meaning_field rfl]
          simp [Token.item, Piece.item]
      | formatted name fmt =>
          have shape : pattern.drop i = '%' :: (name ++ '{' :: (fmt ++ '}' :: printTokens ts)) := by
            simpa [Token.print] using ahead
          have body := drop_succ_of_ahead (drop_of_ahead (drop_succ_of_ahead shape))
          rw [scan_closed shape before,
            ih formed _ _ _ (drop_succ_of_ahead (drop_of_ahead body)), List.map_append, flush_items,
            meaning_field rfl]
          simp [Token.item, Piece.item]
      | unclosed name fmt =>
          obtain ⟨named, inside, last⟩ := before
          rw [last, List.append_nil] at ahead
          have nothing : ts = [] := by
            cases ts with
            | nil => rfl
            | cons token ts => cases token <;> simp [printTokens, Token.print] at last
          rw [scan_unclosed ahead named inside, List.map_append, flush_items, nothing,
            meaning_field rfl]
          simp [meaning, Token.item, Piece.item]

theorem span_append (p : Char → Bool) {front : List Char} (back : List Char)
    (all : ∀ c ∈ front, p c = true) (stops : ∀ c ∈ back.head?, p c = false) :
    (front ++ back).takeWhile p = front ∧ (front ++ back).dropWhile p = back := by
  rw [List.takeWhile_append_of_pos all, List.dropWhile_append_of_pos all]
  cases back with
  | nil => simp
  | cons c back =>
      have stop := stops c rfl
      simp [stop]

/-- Behind the `%` of a token's print the same token is read. -/
theorem percent_print {token : Token} {rest after : List Char} (before : token.Before after)
    (ahead : '%' :: rest = token.print ++ after) : percent rest = (token, after) := by
  cases token with
  | text c => exact absurd (List.cons.inj ahead).1.symm before
  | escape =>
      obtain rfl : rest = after := (List.cons.inj ahead).2
      exact if_pos before
  | field name =>
      obtain ⟨named, stops, single⟩ := before
      obtain rfl : rest = name ++ after := (List.cons.inj ahead).2
      have unopened : ∀ body, after ≠ '{' :: body := by
        rintro body rfl
        exact absurd (stops '{' rfl) (by decide)
      obtain ⟨taken, dropped⟩ := span_append inName after named fun c first => by
        by_contra stays
        have passes := (inName_iff c).mp (by simpa using stays)
        exact absurd (stops c first) (by simp [passes.1])
      rw [percent, if_neg (head_of_name named single), taken, dropped]
      split
      · rename_i body
        exact absurd rfl (unopened body)
      · rfl
  | formatted name fmt =>
      obtain ⟨named, inside⟩ := before
      obtain rfl : rest = name ++ '{' :: (fmt ++ '}' :: after) := by
        simpa [Token.print] using ahead
      obtain ⟨taken, dropped⟩ := span_append inName ('{' :: (fmt ++ '}' :: after)) named
        fun c first => by
          obtain rfl := Option.some.inj first
          decide
      obtain ⟨body, closing⟩ := span_append (· ≠ '}') ('}' :: after)
        (fun c member => decide_eq_true fun same => inside (same ▸ member)) (by simp)
      rw [percent, if_neg (head_of_name named (by simp)), taken, dropped]
      simp only [body, closing]
  | unclosed name fmt =>
      obtain ⟨named, inside, rfl⟩ := before
      obtain rfl : rest = name ++ '{' :: fmt := by simpa [Token.print] using ahead
      obtain ⟨taken, dropped⟩ := span_append inName ('{' :: fmt) named fun c first => by
        obtain rfl := Option.some.inj first
        decide
      have open_ : fmt.dropWhile (· ≠ '}') = [] :=
        List.dropWhile_eq_nil_iff.mpr fun c member =>
          decide_eq_true fun same => inside (same ▸ member)
      rw [percent, if_neg (head_of_name named (by simp)), taken, dropped]
      simp only [open_]

theorem tokens_print {ts : List Token} (formed : Formed ts) : tokens (printTokens ts) = ts := by
  induction ts with
  | nil => rw [printTokens, List.flatMap_nil, tokens]
  | cons token ts ih =>
      obtain ⟨before, formed⟩ := formed
      rw [printTokens, List.flatMap_cons, ← printTokens]
      cases shape : token.print ++ printTokens ts with
      | nil => cases token <;> cases shape
      | cons c rest =>
          rw [tokens]
          split
          · rename_i other
            cases token with
            | text d =>
                obtain ⟨rfl, behind⟩ := List.cons.inj shape
                rw [← behind]
                exact congrArg (Token.text d :: ·) (ih formed)
            | _ => exact absurd (List.cons.inj shape).1.symm other
          · rename_i sign
            obtain rfl : c = '%' := by simpa using sign
            rw [percent_print before shape.symm, ih formed]

section Output

theorem rdropWhile_cons {p : Token → Bool} {token : Token} {ts : List Token}
    (kept : p token = true → ts.all p = false) :
    (token :: ts).rdropWhile p = token :: ts.rdropWhile p := by
  rw [List.rdropWhile, List.reverse_cons, List.dropWhile_append]
  split
  · rename_i nothing
    have all : ts.all p = true := by
      simpa [List.isEmpty_iff, List.dropWhile_eq_nil_iff] using nothing
    have stays : p token = false := by
      by_contra passes
      rw [kept (by simpa using passes)] at all
      cases all
    rw [List.rdropWhile, List.isEmpty_iff.mp nothing]
    simp [stays]
  · rw [List.reverse_append]
    rfl

variable (clock : Strftime) (loggerName : String) (level : LogLevel) (event : LogEvent)

/-- What the tokens say, one after the other. -/
def said (ts : List Token) : String :=
  String.join (ts.map (·.item.format clock loggerName event level))

theorem said_cons (token : Token) (ts : List Token) :
    said clock loggerName level event (token :: ts) =
      token.item.format clock loggerName event level ++ said clock loggerName level event ts := by
  rw [said, List.map_cons, String.join_cons]
  rfl

/-- The text in front of a field is said, the text behind the last one is not. -/
theorem format_meaning (literal : List Char) (ts : List Token) :
    String.join ((meaning literal ts).map (·.format clock loggerName event level)) =
      if ts.all Token.isText then "" else String.ofList literal ++
        said clock loggerName level event (ts.rdropWhile Token.isText) := by
  induction ts generalizing literal with
  | nil => simp [meaning]
  | cons token ts ih =>
      cases char : token.char with
      | some c =>
          have isText : token.isText = true := by rw [Token.isText, char]; rfl
          rw [meaning_text char]
          simp only [List.all_cons, isText, Bool.true_and, ih]
          cases all : ts.all Token.isText with
          | true => rfl
          | false =>
              rw [rdropWhile_cons (fun _ => all), said_cons, Token.item_of_char char]
              simp only [FormatItem.format, Bool.false_eq_true, ↓reduceIte]
              rw [String.ofList_append, String.append_assoc]
              rfl
      | none =>
          have isField : token.isText = false := by rw [Token.isText, char]; rfl
          have front : String.join ((if literal = [] then [] else
              [FormatItem.string (String.ofList literal)]).map
              (·.format clock loggerName event level)) = String.ofList literal := by
            split
            · rename_i empty
              rw [empty]
              rfl
            · simp [FormatItem.format]
          rw [meaning_field char]
          simp only [List.all_cons, isField, Bool.false_and, Bool.false_eq_true, ↓reduceIte]
          rw [List.map_append, String.join_append, front, List.map_cons, String.join_cons, ih,
            rdropWhile_cons (by simp [isField]), said_cons]
          cases all : ts.all Token.isText with
          | true =>
              have nothing := (List.rdropWhile_eq_nil_iff (p := Token.isText)).mpr
                (List.all_eq_true.mp all)
              simp [nothing, said]
          | false => simp

end Output

/-- Every pattern is the print of exactly one list of tokens, each of which can stand where it
stands. The items are the tokens' meaning, and what is formatted is what the tokens say one after
the other, without the text tokens behind the last field. -/
theorem new_reads (pattern : String) :
    ∃ ts, Formed ts ∧ printTokens ts = pattern.toList ∧
      (∀ others, Formed others → printTokens others = pattern.toList → others = ts) ∧
      (new pattern).items = meaning [] ts ∧
      ∀ clock loggerName level event, (new pattern).format clock loggerName level event =
        said clock loggerName level event (ts.rdropWhile Token.isText) := by
  have formed := tokens_formed pattern.toList
  have printed := print_tokens pattern.toList
  have items : (new pattern).items = meaning [] (tokens pattern.toList) := by
    rw [new_items]
    exact scan_meaning formed 0 [] [] printed.symm
  refine ⟨_, formed, printed, fun others other same => ?_, items, ?_⟩
  · rw [← same, tokens_print other]
  · intro clock loggerName level event
    rw [format, items, format_meaning]
    cases all : (tokens pattern.toList).all Token.isText with
    | true =>
        have nothing := (List.rdropWhile_eq_nil_iff (p := Token.isText)).mpr
          (List.all_eq_true.mp all)
        rw [nothing]
        rfl
    | false => simp

end ZnetServer.LogFormatter
