import RecordCache.Json.Reader
import RecordCache.Proofs.Json.FloatLiteral
import RecordCache.Proofs.Json.StringLiteral

/-!
# Reading documents back

A compact text is read as the document that it was written from. Two things are not kept: a
floating-point number becomes what a reader makes of its literal, and one that is not finite
becomes null.

* `Json.document` is the document that the text of a value says;
* `Document.value_text`: a value in front of other text is read as its document, with fuel twice
  its length;
* `Document.parse?_print`: so is a whole text.
-/

namespace RecordCache.Json

mutual

/-- The document that the text of a value says. -/
def document : Json → Document
  | null => .null
  | bool b => .bool b
  | number (.integer n) => .number (some (.integer n))
  | number (.float x) => if x.isFinite then .number (some (.float x.reread)) else .null
  | string s => .string (some s)
  | array items => .array (documentItems items)
  | object members => .object (documentMembers members)

/-- The documents of the items. -/
def documentItems : List Json → List Document
  | [] => []
  | item :: items => item.document :: documentItems items

/-- The members with the documents of their values. -/
def documentMembers : List (String × Json) → List (Option String × Document)
  | [] => []
  | (name, value) :: members => (some name, value.document) :: documentMembers members

end

theorem delimited_cons {c : Char} {text : List Char}
    (h : Text.digitValue? c = none ∧ c ≠ '.' ∧ c ≠ 'e' ∧ c ≠ 'E') : Delimited (c :: text) := by
  rintro d hd
  cases hd
  exact h

theorem delimited_comma (text : List Char) : Delimited (',' :: text) :=
  delimited_cons (by decide)

theorem delimited_bracket (text : List Char) : Delimited (']' :: text) :=
  delimited_cons (by decide)

theorem delimited_brace (text : List Char) : Delimited ('\x7d' :: text) :=
  delimited_cons (by decide)

theorem delimited_nil : Delimited [] := nofun

/-- The characters that may stand at the front of a value: no blank and no closing bracket. -/
def StartsValue (text : List Char) : Prop :=
  ∃ c rest, text = c :: rest ∧ Document.isBlank c = false ∧ c ≠ ']'

namespace Numeral

/-- The characters that may stand at the front of a literal. -/
def StartsNumeral (c : Char) : Prop := c = '-' ∨ ∃ d < 10, c = Text.digitChar d

theorem text_cons {n : Numeral} (h : n.WellFormed) :
    ∃ c rest, n.text = c :: rest ∧ StartsNumeral c := by
  obtain ⟨negative, whole, fraction, exponent⟩ := n
  cases negative with
  | true => exact ⟨'-', _, rfl, .inl rfl⟩
  | false =>
    cases whole with
    | nil => exact absurd rfl h.whole.1
    | cons d ds => exact ⟨Text.digitChar d, _, rfl, .inr ⟨d, h.whole.2 d List.mem_cons_self, rfl⟩⟩

theorem digitChar_plain : ∀ d < 10, Document.isBlank (Text.digitChar d) = false ∧
    Text.digitChar d ∉ ['n', 't', 'f', '"', '[', '\x7b', ']'] := by decide

theorem StartsNumeral.plain {c : Char} (h : StartsNumeral c) : Document.isBlank c = false ∧
    c ∉ ['n', 't', 'f', '"', '[', '\x7b', ']'] := by
  rcases h with rfl | ⟨d, hd, rfl⟩
  · decide
  · exact digitChar_plain d hd

end Numeral

namespace Document

theorem skipBlanks_cons {c : Char} (h : isBlank c = false) (text : List Char) :
    skipBlanks (c :: text) = c :: text := by
  rw [skipBlanks, List.dropWhile_cons_of_neg (by simp [h])]

/-- A number literal is read as the number that it denotes. -/
theorem value_numeral {n : Numeral} (h : n.WellFormed) (fuel : Nat) {rest : List Char}
    (hrest : Delimited rest) :
    value (fuel + 1) (n.text ++ rest) = some (number n.number?, rest) := by
  have hscan := Numeral.scan_text h hrest
  obtain ⟨c, tail, htext, hstart⟩ := Numeral.text_cons h
  obtain ⟨hblank, hplain⟩ := hstart.plain
  simp only [List.mem_cons, List.not_mem_nil, or_false, not_or] at hplain
  obtain ⟨hn, ht, hf, hq, hb, ho, -⟩ := hplain
  rw [htext] at hscan ⊢
  rw [List.cons_append] at hscan ⊢
  rw [value, skipBlanks_cons hblank]
  split
  · rename_i heq
    exact absurd (List.cons.inj heq).1 hn
  · rename_i heq
    exact absurd (List.cons.inj heq).1 ht
  · rename_i heq
    exact absurd (List.cons.inj heq).1 hf
  · rename_i heq
    exact absurd (List.cons.inj heq).1 hq
  · rename_i heq
    exact absurd (List.cons.inj heq).1 hb
  · rename_i heq
    exact absurd (List.cons.inj heq).1 ho
  · rw [hscan]
    rfl

end Document

theorem startsValue_cons {c : Char} (rest : List Char) (h : Document.isBlank c = false)
    (hc : c ≠ ']') : StartsValue (c :: rest) := ⟨c, rest, rfl, h, hc⟩

theorem startsValue_text (j : Json) : StartsValue j.text := by
  have hnumeral : ∀ {n : Numeral}, n.WellFormed → StartsValue n.text := by
    intro n h
    obtain ⟨c, rest, htext, hstart⟩ := Numeral.text_cons h
    obtain ⟨hblank, hplain⟩ := hstart.plain
    rw [htext]
    exact startsValue_cons rest hblank fun hc => hplain (by simp [hc])
  cases j with
  | null => exact startsValue_cons _ rfl (by decide)
  | bool b => cases b <;> exact startsValue_cons _ rfl (by decide)
  | number n =>
    cases n with
    | integer n =>
      show StartsValue (Text.decimalInt n.toInt)
      rw [← Numeral.text_ofInt]
      exact hnumeral (Numeral.wellFormed_ofInt _)
    | float x =>
      show StartsValue (if x.isFinite then numbers.text x else ['n', 'u', 'l', 'l'])
      split
      · rename_i hfinite
        rw [← Binary64.text_literal]
        exact hnumeral (Binary64.wellFormed_literal hfinite)
      · exact startsValue_cons _ rfl (by decide)
  | string s => exact startsValue_cons _ rfl (by decide)
  | array items => exact startsValue_cons _ rfl (by decide)
  | object members => exact startsValue_cons _ rfl (by decide)

theorem StartsValue.append {text : List Char} (h : StartsValue text) (rest : List Char) :
    StartsValue (text ++ rest) := by
  obtain ⟨c, tail, rfl, hblank, hc⟩ := h
  exact startsValue_cons _ hblank hc

theorem StartsValue.length_pos {text : List Char} (h : StartsValue text) : 0 < text.length := by
  obtain ⟨c, tail, rfl, -, -⟩ := h
  exact Nat.succ_pos _

theorem startsValue_textItems (item : Json) (items : List Json) :
    StartsValue (textItems (item :: items)) := by
  cases items with
  | nil => exact startsValue_text item
  | cons next items => exact (startsValue_text item).append _

namespace Document

theorem value_open_bracket (fuel : Nat) (text : List Char) :
    value (fuel + 1) ('[' :: text) =
      match skipBlanks text with
      | ']' :: rest => some (array [], rest)
      | rest => (items fuel rest).map fun read => (array read.1, read.2) := by
  rw [value, skipBlanks_cons (by decide)]
  rfl

theorem value_open_brace (fuel : Nat) (text : List Char) :
    value (fuel + 1) ('\x7b' :: text) =
      match skipBlanks text with
      | '\x7d' :: rest => some (object [], rest)
      | rest => (members fuel rest).map fun read => (object read.1, read.2) := by
  rw [value, skipBlanks_cons (by decide)]
  rfl

/-- Behind an opening bracket the items are read if there is one. -/
theorem value_bracket (fuel : Nat) {text : List Char} (h : StartsValue text) :
    value (fuel + 1) ('[' :: text) = (items fuel text).map fun read => (array read.1, read.2) := by
  obtain ⟨c, rest, rfl, hblank, hc⟩ := h
  rw [value_open_bracket, skipBlanks_cons hblank]
  split
  · rename_i heq
    exact absurd (List.cons.inj heq).1 hc
  · rfl

/-- Behind an opening brace the members are read if there is one. -/
theorem value_brace (fuel : Nat) (text : List Char) :
    value (fuel + 1) ('\x7b' :: '"' :: text) =
      (members fuel ('"' :: text)).map fun read => (object read.1, read.2) := by
  rw [value_open_brace, skipBlanks_cons (by decide)]
  rfl

theorem items_step (fuel : Nat) (text : List Char) :
    items (fuel + 1) text = (value fuel text).bind fun read =>
      match skipBlanks read.2 with
      | ']' :: rest => some ([read.1], rest)
      | ',' :: rest => (items fuel rest).map fun more => (read.1 :: more.1, more.2)
      | _ => none := by
  rw [items]
  rfl

theorem items_last (fuel : Nat) {text rest : List Char} {item : Document}
    (h : value fuel text = some (item, ']' :: rest)) :
    items (fuel + 1) text = some ([item], rest) := by
  rw [items_step, h, Option.bind_some, skipBlanks_cons (by decide)]
  rfl

theorem items_more (fuel : Nat) {text rest : List Char} {item : Document}
    (h : value fuel text = some (item, ',' :: rest)) :
    items (fuel + 1) text = (items fuel rest).map fun read => (item :: read.1, read.2) := by
  rw [items_step, h, Option.bind_some, skipBlanks_cons (by decide)]
  rfl

theorem members_step (fuel : Nat) (name : String) (text : List Char) :
    members (fuel + 1) (quote name ++ ':' :: text) = (value fuel text).bind fun read =>
      match skipBlanks read.2 with
      | '\x7d' :: rest => some ([(some name, read.1)], rest)
      | ',' :: rest => (members fuel rest).map fun more => ((some name, read.1) :: more.1, more.2)
      | _ => none := by
  have hquote : quote name ++ ':' :: text =
      '"' :: (name.toList.flatMap escapeChar ++ '"' :: ':' :: text) := by
    simp [quote]
  rw [hquote, members, skipBlanks_cons (by decide)]
  show (stringBody (name.toList.flatMap escapeChar ++ '"' :: ':' :: text)).bind _ = _
  rewrite [stringBody_quote]
  rfl

theorem members_last (fuel : Nat) (name : String) {text rest : List Char} {content : Document}
    (h : value fuel text = some (content, '\x7d' :: rest)) :
    members (fuel + 1) (quote name ++ ':' :: text) = some ([(some name, content)], rest) := by
  rw [members_step, h, Option.bind_some, skipBlanks_cons (by decide)]
  rfl

theorem members_more (fuel : Nat) (name : String) {text rest : List Char} {content : Document}
    (h : value fuel text = some (content, ',' :: rest)) :
    members (fuel + 1) (quote name ++ ':' :: text) =
      (members fuel rest).map fun more => ((some name, content) :: more.1, more.2) := by
  rw [members_step, h, Option.bind_some, skipBlanks_cons (by decide)]
  rfl

end Document

mutual

/-- A value in front of other text is read as its document. -/
theorem Document.value_text (j : Json) (fuel : Nat) (hfuel : 2 * j.text.length ≤ fuel)
    {rest : List Char} (hrest : Delimited rest) :
    Document.value fuel (j.text ++ rest) = some (j.document, rest) := by
  obtain ⟨fuel, rfl⟩ : ∃ k, fuel = k + 1 := by
    have hpos := (startsValue_text j).length_pos
    exact ⟨fuel - 1, by omega⟩
  match j with
  | .null => rfl
  | .bool true => rfl
  | .bool false => rfl
  | .number (.integer n) =>
    show Document.value (fuel + 1) (Text.decimalInt n.toInt ++ rest) = _
    rw [← Numeral.text_ofInt, Document.value_numeral (Numeral.wellFormed_ofInt _) fuel hrest,
      Numeral.number?_ofInt]
    rfl
  | .number (.float x) =>
    show Document.value (fuel + 1)
      ((if x.isFinite then numbers.text x else ['n', 'u', 'l', 'l']) ++ rest) =
        some (if x.isFinite then .number (some (.float x.reread)) else .null, rest)
    split
    · rename_i hfinite
      rw [← Binary64.text_literal, Document.value_numeral (Binary64.wellFormed_literal hfinite)
        fuel hrest, Binary64.number?_literal hfinite]
    · rfl
  | .string s =>
    have hquote : Json.text (.string s) ++ rest =
        '"' :: (s.toList.flatMap escapeChar ++ '"' :: rest) := by
      simp [Json.text, quote]
    rw [hquote, Document.value, Document.skipBlanks_cons (by decide)]
    simp only [Document.stringBody_quote]
    rfl
  | .array [] => rfl
  | .array (item :: items) =>
    -- the brackets leave the items two characters less, which pays for the fuel
    have hlength : (Json.text (.array (item :: items))).length =
        (textItems (item :: items)).length + 2 := by simp [Json.text]
    have hitems := Document.items_text (item :: items) (List.cons_ne_nil _ _) fuel
      (by omega) rest
    have htext : Json.text (.array (item :: items)) ++ rest =
        '[' :: (textItems (item :: items) ++ ']' :: rest) := by simp [Json.text]
    rw [htext, Document.value_bracket fuel ((startsValue_textItems item items).append _), hitems]
    rfl
  | .object [] => rfl
  | .object ((name, value) :: members) =>
    have hlength : (Json.text (.object ((name, value) :: members))).length =
        (textMembers ((name, value) :: members)).length + 2 := by simp [Json.text]
    have hmembers := Document.members_text ((name, value) :: members) (List.cons_ne_nil _ _)
      fuel (by omega) rest
    -- a member starts with a quotation mark, by which the reader tells it from a closing brace
    obtain ⟨tail, htail⟩ : ∃ tail, textMembers ((name, value) :: members) = '"' :: tail := by
      cases members <;> exact ⟨_, rfl⟩
    have htext : Json.text (.object ((name, value) :: members)) ++ rest =
        '\x7b' :: '"' :: (tail ++ '\x7d' :: rest) := by simp [Json.text, htail]
    rw [htail] at hmembers
    rw [htext, Document.value_brace, ← List.cons_append, hmembers]
    rfl

/-- Items between commas are read as their documents. -/
theorem Document.items_text (items : List Json) (hne : items ≠ []) (fuel : Nat)
    (hfuel : 2 * (textItems items).length + 1 ≤ fuel) (rest : List Char) :
    Document.items fuel (textItems items ++ ']' :: rest) = some (documentItems items, rest) := by
  obtain ⟨fuel, rfl⟩ : ∃ k, fuel = k + 1 := ⟨fuel - 1, by omega⟩
  match items with
  | [] => exact absurd rfl hne
  | [item] =>
    have hvalue := Document.value_text item fuel (by
      simp only [textItems] at hfuel
      omega) (delimited_bracket rest)
    exact Document.items_last fuel hvalue
  | item :: next :: items =>
    have hlength : (textItems (item :: next :: items)).length =
        item.text.length + (textItems (next :: items)).length + 1 := by
      simp [textItems]
      omega
    have hvalue := Document.value_text item fuel (by omega)
      (delimited_comma (textItems (next :: items) ++ ']' :: rest))
    have hitems := Document.items_text (next :: items) (List.cons_ne_nil _ _) fuel
      (by omega) rest
    have htext : textItems (item :: next :: items) ++ ']' :: rest =
        item.text ++ ',' :: (textItems (next :: items) ++ ']' :: rest) := by simp [textItems]
    rw [htext, Document.items_more fuel hvalue, hitems]
    rfl

/-- Members between commas are read with the documents of their values. -/
theorem Document.members_text (members : List (String × Json)) (hne : members ≠ []) (fuel : Nat)
    (hfuel : 2 * (textMembers members).length + 1 ≤ fuel) (rest : List Char) :
    Document.members fuel (textMembers members ++ '\x7d' :: rest) =
      some (documentMembers members, rest) := by
  obtain ⟨fuel, rfl⟩ : ∃ k, fuel = k + 1 := ⟨fuel - 1, by omega⟩
  match members with
  | [] => exact absurd rfl hne
  | [(name, value)] =>
    have hvalue := Document.value_text value fuel (by
      simp only [textMembers, List.length_append, List.length_cons] at hfuel
      omega) (delimited_brace rest)
    have htext : textMembers [(name, value)] ++ '\x7d' :: rest =
        quote name ++ ':' :: (value.text ++ '\x7d' :: rest) := by simp [textMembers]
    rw [htext]
    exact Document.members_last fuel name hvalue
  | (name, value) :: next :: members =>
    have hlength : (textMembers ((name, value) :: next :: members)).length =
        (quote name).length + value.text.length + (textMembers (next :: members)).length + 2 := by
      simp [textMembers]
      omega
    have hvalue := Document.value_text value fuel (by omega)
      (delimited_comma (textMembers (next :: members) ++ '\x7d' :: rest))
    have hmembers := Document.members_text (next :: members) (List.cons_ne_nil _ _) fuel
      (by omega) rest
    have htext : textMembers ((name, value) :: next :: members) ++ '\x7d' :: rest =
        quote name ++ ':' :: (value.text ++ ',' :: (textMembers (next :: members) ++
          '\x7d' :: rest)) := by simp [textMembers]
    rw [htext, Document.members_more fuel name hvalue, hmembers]
    rfl

end

/-- A printed value is read as its document. -/
theorem Document.parse?_print (j : Json) : Document.parse? j.print = some j.document := by
  have hvalue := Document.value_text j (2 * j.text.length + 2) (by omega) delimited_nil
  rw [List.append_nil] at hvalue
  rw [Document.parse?, print, String.toList_ofList, hvalue]
  rfl

end RecordCache.Json
