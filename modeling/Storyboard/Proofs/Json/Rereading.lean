import Mathlib.Data.List.Basic
import Mathlib.Data.String.Basic
import Storyboard.Json.Printer
import Storyboard.Json.Reader

/-! # Reading what is written

The text of a value is read as that value again: names of JSON, strings, arrays and objects
come back as they were. Only numbers may differ, for the text of a number is read without
knowledge of the format that it was written from, and what is not finite was written as null.
-/

namespace Storyboard

namespace Json

/-! ## What the texts of values are read as -/

mutual

/-- The value with every number replaced by what its own text is read as. -/
def reread : Json → Option Json
  | .null => some .null
  | .bool b => some (.bool b)
  | .number n => ofWord? n.text.toList
  | .string s => some (.string s)
  | .array items => (rereadItems items).map .array
  | .object fields => (rereadFields fields).map .object
  | .meaningless => some .null

@[inherit_doc reread]
def rereadItems : List Json → Option (List Json)
  | [] => some []
  | v :: rest => v.reread.bind fun w => (rereadItems rest).map (w :: ·)

@[inherit_doc reread]
def rereadFields : List (String × Json) → Option (List (String × Json))
  | [] => some []
  | (k, v) :: rest => v.reread.bind fun w => (rereadFields rest).map ((k, w) :: ·)

end

/-! ## Runs of the reader -/

namespace Reader

/-- The reader after some more characters. -/
def run (r : Reader) (text : List Char) : Option Reader :=
  text.foldlM step? r

@[simp] theorem run_nil (r : Reader) : r.run [] = some r := rfl

@[simp] theorem run_cons (r : Reader) (c : Char) (text : List Char) :
    r.run (c :: text) = (r.step? c).bind (·.run text) := by
  simp only [run, List.foldlM_cons]
  rfl

theorem run_singleton (r : Reader) (c : Char) : r.run [c] = r.step? c := by
  rw [run_cons]
  exact Option.bind_fun_some _

theorem run_append (r : Reader) (front back : List Char) :
    r.run (front ++ back) = (r.run front).bind (·.run back) := by
  simp only [run, List.foldlM_append]
  rfl

/-- The reader is between lexemes, at a place where a value may stand. -/
structure AwaitsValue (r : Reader) : Prop where
  outside : r.lexeme = .outside
  value : r.awaiting = .value ∨ r.awaiting = .valueOrClose

theorem step?_of_outside {r : Reader} (h : r.lexeme = .outside) (c : Char) :
    r.step? c = r.begin? c := by
  unfold step?
  rw [h]

@[simp] theorem lexeme_accept (r : Reader) (v : Json) : (r.accept v).lexeme = .outside := by
  unfold accept
  split <;> rfl

theorem AwaitsValue.value?_eq {r : Reader} (h : r.AwaitsValue) (v : Json) :
    r.value? v = some (r.accept v) := by
  unfold value?
  rcases h.value with hvalue | hvalue <;> rw [hvalue]

end Reader

open Reader

theorem ofText?_eq_run (text : String) :
    ofText? text = (Reader.start.run text.toList).bind finish? := rfl

/-- A text is read as a value wherever one may stand, be it at the end or in front of one of the
marks of JSON. -/
def Reads (text : List Char) (value? : Option Json) : Prop :=
  ∀ r : Reader, r.AwaitsValue →
    (r.run text).bind finish? = value?.bind (fun v => (r.accept v).finish?) ∧
    ∀ c rest, isMark c → r.run (text ++ c :: rest) =
      value?.bind fun v => (r.accept v).run (c :: rest)

theorem Reads.ofText? {text : String} {value? : Option Json} (h : Reads text.toList value?) :
    ofText? text = value? := by
  rw [ofText?_eq_run, (h Reader.start ⟨rfl, .inl rfl⟩).1]
  cases value? <;> rfl

/-- What ends with a lexeme that is closed is read as a value at once. -/
theorem reads_of_run {text : List Char} {value? : Option Json}
    (h : ∀ r : Reader, r.AwaitsValue → r.run text = value?.map r.accept) : Reads text value? := by
  intro r hr
  have hrun := h r hr
  constructor
  · rw [hrun]
    cases value? <;> rfl
  · intro c rest _
    rw [run_append, hrun]
    cases value? <;> rfl

/-! ## Words -/

/-- A character that can stand in a bare word. -/
def IsWordChar (c : Char) : Prop :=
  ¬ (isBlank c || isMark c || c = '"')

instance : DecidablePred IsWordChar :=
  fun _ => inferInstanceAs (Decidable (¬ _))

/-- The text has none of the characters that end a bare word. -/
def Solid (text : List Char) : Prop :=
  ∀ c ∈ text, IsWordChar c

@[simp] theorem solid_nil : Solid [] := nofun

@[simp] theorem solid_cons {c : Char} {text : List Char} :
    Solid (c :: text) ↔ IsWordChar c ∧ Solid text :=
  List.forall_mem_cons

@[simp] theorem solid_append {front back : List Char} :
    Solid (front ++ back) ↔ Solid front ∧ Solid back :=
  List.forall_mem_append

theorem Solid.of_subset {text part : List Char} (h : Solid text) (hpart : part ⊆ text) :
    Solid part :=
  fun c hc => h c (hpart hc)

theorem IsWordChar.step?_word {c : Char} (h : IsWordChar c) (r : Reader) (reversed : List Char) :
    { r with lexeme := .word reversed }.step? c = some { r with lexeme := .word (c :: reversed) } :=
  if_neg h

theorem IsWordChar.begin? {c : Char} (h : IsWordChar c) (r : Reader) :
    r.begin? c = some { r with lexeme := .word [c] } := by
  simp only [IsWordChar, Bool.or_eq_true, decide_eq_true_eq, not_or] at h
  obtain ⟨⟨hblank, hmark⟩, hquote⟩ := h
  unfold Reader.begin?
  rw [if_neg hblank, if_neg hmark, if_neg hquote]

theorem run_word {word : List Char} (h : Solid word) (r : Reader)
    (reversed : List Char) :
    { r with lexeme := .word reversed }.run word =
      some { r with lexeme := .word (word.reverse ++ reversed) } := by
  induction word generalizing reversed with
  | nil => rfl
  | cons c rest ih =>
      obtain ⟨hc, hrest⟩ := solid_cons.mp h
      rw [run_cons, hc.step?_word, Option.bind_some, ih hrest, List.reverse_cons,
        List.append_assoc, List.singleton_append]

/-- A bare word has its meaning only when it has come to its end. -/
theorem reads_word {word : List Char} (hne : word ≠ []) (h : Solid word) :
    Reads word (ofWord? word) := by
  intro r hr
  have hrun : r.run word = some { r with lexeme := .word word.reverse } := by
    cases word with
    | nil => exact absurd rfl hne
    | cons c rest =>
        obtain ⟨hc, hrest⟩ := solid_cons.mp h
        rw [run_cons, step?_of_outside hr.outside, hc.begin?, Option.bind_some, run_word hrest,
          List.reverse_cons]
  have hvalue : ∀ v, { r with lexeme := .word word.reverse }.value? v = some (r.accept v) :=
    hr.value?_eq
  constructor
  · rw [hrun, Option.bind_some]
    simp only [finish?, List.reverse_reverse]
    cases ofWord? word with
    | none => rfl
    | some v => simp [hvalue]
  · intro c rest hc
    rw [run_append, hrun, Option.bind_some, run_cons]
    simp only [step?, hc, Bool.or_true, Bool.true_or, if_true, List.reverse_reverse]
    cases ofWord? word with
    | none => rfl
    | some v => simp [hvalue, step?_of_outside]

/-! ## Numbers -/

theorem isWordChar_of_isDigit {c : Char} (h : c.isDigit) : IsWordChar c := by
  intro hc
  simp only [isBlank, isMark, Bool.or_eq_true, decide_eq_true_eq] at hc
  rcases hc with ((((rfl | rfl) | rfl) | rfl) | (((((rfl | rfl) | rfl) | rfl) | rfl) | rfl)) | rfl
  all_goals exact absurd h (by decide)

@[simp] theorem solid_toDigits (n : ℕ) : Solid (Nat.toDigits 10 n) :=
  fun _ hc => isWordChar_of_isDigit (Nat.isDigit_of_mem_toDigits (by decide) (by decide) hc)

@[simp] theorem solid_zeros (count : ℤ) : Solid (Layout.zeros count) := by
  intro c hc
  rw [(List.mem_replicate.mp hc).2]
  decide

/-- A text that is written and read as one bare word. -/
structure IsWord (text : String) : Prop where
  ne_nil : text.toList ≠ []
  solid : Solid text.toList

theorem IsWord.reads {text : String} (h : IsWord text) :
    Reads text.toList (ofWord? text.toList) :=
  reads_word h.ne_nil h.solid

theorem isWord_null : IsWord "null" := by
  constructor <;> simp [IsWordChar, isBlank, isMark]

theorem isWord_bool (b : Bool) : IsWord (if b then "true" else "false") := by
  cases b <;> constructor <;> simp [IsWordChar, isBlank, isMark]

theorem isWord_repr (n : ℕ) : IsWord n.repr := by
  constructor
  · rw [Nat.toList_repr]
    exact Nat.toDigits_ne_nil
  · rw [Nat.toList_repr]
    exact solid_toDigits n

end Json

namespace Layout

open Json

theorem place_ne_nil (layout : Layout) (digits : List Char) (exponent : ℤ) :
    layout.place digits exponent ≠ [] := by
  unfold place
  split
  · split
    · exact List.cons_ne_nil _ _
    · intro h
      obtain ⟨hwhole, -⟩ := List.append_eq_nil_iff.mp h
      have hlength := congrArg List.length hwhole
      simp only [zeros, List.length_append, List.length_replicate, List.length_nil] at hlength
      omega
  · exact fun h => Nat.toDigits_ne_nil (List.append_eq_nil_iff.mp h).2

theorem solid_place (layout : Layout) {digits : List Char} (h : Solid digits) (exponent : ℤ) :
    Solid (layout.place digits exponent) := by
  have htake : ∀ n, Solid (digits.take n) := fun n => h.of_subset (List.take_subset n digits)
  have hdrop : ∀ n, Solid (digits.drop n) := fun n => h.of_subset (List.drop_subset n digits)
  have hlone : IsWordChar '.' ∧ IsWordChar '0' ∧ IsWordChar 'e' ∧ IsWordChar '+' ∧
      IsWordChar '-' := by decide
  unfold place
  dsimp only
  split_ifs <;> simp [-List.drop_one, h, htake, hdrop, hlone]

theorem solid_decimal (layout : Layout) (d : Decimal) : Solid (layout.decimal d) := by
  refine solid_place layout (Solid.of_subset (solid_toDigits d.digits) fun c hc => ?_) _
  exact List.mem_reverse.mp ((List.dropWhile_suffix _).subset (List.mem_reverse.mp hc))

theorem isWord_signed (negative : Bool) {text : List Char} (hne : text ≠ []) (h : Solid text) :
    IsWord (render.signed negative text) := by
  have hminus : IsWordChar '-' := by decide
  constructor <;> cases negative <;> simp [render.signed, hne, h, hminus]

theorem isWord_render (layout : Layout) (reading : Reading) : IsWord (layout.render reading) := by
  cases reading with
  | nan => constructor <;> simp [render, IsWordChar, isBlank, isMark]
  | infinite negative =>
      cases negative <;> constructor <;> simp [render, IsWordChar, isBlank, isMark]
  | zero negative =>
      refine isWord_signed negative ?_ ?_ <;> split <;> simp [IsWordChar, isBlank, isMark]
  | finite negative magnitude =>
      exact isWord_signed negative (layout.place_ne_nil _ _) (layout.solid_decimal _)

end Layout

namespace Json

open Reader

theorem Number.isWord_text (n : Number) : IsWord n.text := by
  cases n with
  | integer n =>
      cases n with
      | ofNat k => exact isWord_repr k
      | negSucc k =>
          have hminus : IsWordChar '-' := by decide
          have htext : (Number.integer (.negSucc k)).text = "-" ++ k.succ.repr := rfl
          rw [htext]
          constructor <;> simp [-Nat.succ_eq_add_one, hminus]
  | double x =>
      rw [text]
      split
      · exact layout.isWord_render _
      · exact isWord_null
  | single x =>
      rw [text]
      split
      · exact layout.isWord_render _
      · exact isWord_null

/-! ## Strings -/

theorem hexDigit?_digitChar {d : ℕ} (h : d < 16) : hexDigit? (Nat.digitChar d) = some d := by
  revert d
  decide

/-- An escape is read as the character that it was written for. -/
theorem run_escape (r : Reader) (q : Quoted) (c : Char) :
    { r with lexeme := .quoted q }.run (escape c) =
      some { r with lexeme := .quoted (q.push c) } := by
  unfold escape
  split
  case h_8 hquote hslash _ _ _ _ _ =>
    have hquote : c ≠ '"' := hquote
    have hslash : c ≠ '\\' := hslash
    split
    · next hlow =>
      have hhigh := hexDigit?_digitChar (d := c.toNat / 16) (by omega)
      have hrest := hexDigit?_digitChar (d := c.toNat % 16) (Nat.mod_lt _ (by decide))
      have hcode : 16 * (c.toNat / 16) + c.toNat % 16 = c.toNat := Nat.div_add_mod _ _
      have hzero : hexDigit? '0' = some 0 := rfl
      have hunit : q.pushUnit c.toNat = q.push c := by
        unfold Quoted.pushUnit
        rw [if_neg (by omega), if_neg (by omega), Char.ofNat_toNat]
      simp [step?, escaped?, hzero, hhigh, hrest, hcode, hunit]
    · next hlow => simp [step?, hquote, hslash, hlow]
  all_goals rfl

theorem run_escapes (r : Reader) (q : Quoted) (s : List Char) :
    { r with lexeme := .quoted q }.run (s.flatMap escape) =
      some { r with lexeme := .quoted (s.foldl Quoted.push q) } := by
  induction s generalizing q with
  | nil => rfl
  | cons c rest ih =>
      rw [List.flatMap_cons, run_append, run_escape, Option.bind_some, ih, List.foldl_cons]

theorem foldl_push (s reversed : List Char) :
    s.foldl Quoted.push ⟨reversed, none, false⟩ = ⟨s.reverse ++ reversed, none, false⟩ := by
  induction s generalizing reversed with
  | nil => rfl
  | cons c rest ih =>
      rw [List.foldl_cons, List.reverse_cons, List.append_assoc, List.singleton_append, ← ih]
      rfl

/-- Quoted text is read as the text, whether it is a key or a value. -/
theorem run_quote {r : Reader} (h : r.lexeme = .outside) (s : String) :
    r.run (quote s).toList = r.string? (some s) := by
  have hopen : r.begin? '"' = some { r with lexeme := .quoted .empty } := rfl
  have htext : (s.toList.foldl Quoted.push .empty).text? = some s := by
    unfold Quoted.empty
    rw [foldl_push]
    simp [Quoted.text?]
  unfold quote
  rw [String.toList_ofList, List.cons_append, run_cons, step?_of_outside h, hopen,
    Option.bind_some, run_append, run_escapes, Option.bind_some, run_singleton]
  simp only [step?, if_true, htext]
  rfl

theorem reads_quote (s : String) : Reads (quote s).toList (some (.string s)) := by
  refine reads_of_run fun r hr => ?_
  rw [run_quote hr.outside]
  have hvalue := hr.value?_eq (.string s)
  unfold Reader.string?
  rcases hr.value with hawaiting | hawaiting <;> rw [hawaiting] <;> exact hvalue

/-! ## Arrays and objects -/

/-- Texts with commas between them: each one but the first has a comma in front. -/
theorem intercalate_cons (first : List Char) (rest : List (List Char)) :
    [','].intercalate (first :: rest) = first ++ rest.flatMap (',' :: ·) := by
  induction rest generalizing first with
  | nil => simp
  | cons second rest ih =>
      rw [List.intercalate_cons_cons, ih second, List.flatMap_cons]
      simp

/-- What is written of an array after its first item. -/
def itemsTail (items : List Json) : List Char :=
  items.flatMap (fun v => ',' :: v.text.toList) ++ [']']

/-- A field as it is written. -/
def fieldText (f : String × Json) : List Char :=
  (quote f.1).toList ++ ':' :: f.2.text.toList

/-- What is written of an object after its first field. -/
def fieldsTail (fields : List (String × Json)) : List Char :=
  fields.flatMap (fun f => ',' :: fieldText f) ++ ['\x7d']

theorem itemTexts_eq_map (items : List Json) : itemTexts items = items.map text := by
  induction items with
  | nil => rfl
  | cons v rest ih => rw [itemTexts, ih, List.map_cons]

theorem toList_fieldTexts (fields : List (String × Json)) :
    (fieldTexts fields).map String.toList = fields.map fieldText := by
  induction fields with
  | nil => rfl
  | cons f rest ih =>
      obtain ⟨k, v⟩ := f
      rw [fieldTexts, List.map_cons, List.map_cons, ih]
      simp [fieldText]

theorem toList_text_array (v : Json) (rest : List Json) :
    (Json.array (v :: rest)).text.toList = '[' :: (v.text.toList ++ itemsTail rest) := by
  simp [text, itemTexts_eq_map, String.toList_intercalate, intercalate_cons, itemsTail,
    List.flatMap_map]

theorem toList_text_object (f : String × Json) (rest : List (String × Json)) :
    (Json.object (f :: rest)).text.toList = '\x7b' :: (fieldText f ++ fieldsTail rest) := by
  simp [text, toList_fieldTexts, String.toList_intercalate, intercalate_cons, fieldsTail,
    List.flatMap_map]

theorem exists_mark_itemsTail (items : List Json) :
    ∃ c rest, itemsTail items = c :: rest ∧ isMark c := by
  cases items with
  | nil => exact ⟨_, _, rfl, rfl⟩
  | cons v rest => exact ⟨_, _, rfl, rfl⟩

theorem exists_mark_fieldsTail (fields : List (String × Json)) :
    ∃ c rest, fieldsTail fields = c :: rest ∧ isMark c := by
  cases fields with
  | nil => exact ⟨_, _, rfl, rfl⟩
  | cons f rest => exact ⟨_, _, rfl, rfl⟩

namespace Reader

/-- The reader inside of an array, last item first, that stands at a place for a value. -/
def inArray (r : Reader) (items : List Json) (next : Awaiting) : Reader :=
  ⟨.outside, next, .array items :: r.frames, .null⟩

/-- The reader inside of an object, last field first. -/
def inObject (r : Reader) (fields : List (String × Json)) (key : Option String)
    (next : Awaiting) : Reader :=
  ⟨.outside, next, .object (some fields) key :: r.frames, .null⟩

variable {r : Reader} {items : List Json} {fields : List (String × Json)}

theorem AwaitsValue.run_open_array (h : r.AwaitsValue) (text : List Char) :
    r.run ('[' :: text) = (r.inArray [] .valueOrClose).run text := by
  have hopen : r.begin? '[' = some (r.inArray [] .valueOrClose) := by
    change r.open? (.array []) .valueOrClose = _
    unfold open?
    rcases h.value with hvalue | hvalue <;> rw [hvalue] <;> rfl
  rw [run_cons, step?_of_outside h.outside, hopen, Option.bind_some]

theorem AwaitsValue.run_open_object (h : r.AwaitsValue) (text : List Char) :
    r.run ('\x7b' :: text) = (r.inObject [] none .keyOrClose).run text := by
  have hopen : r.begin? '\x7b' = some (r.inObject [] none .keyOrClose) := by
    change r.open? (.object (some []) none) .keyOrClose = _
    unfold open?
    rcases h.value with hvalue | hvalue <;> rw [hvalue] <;> rfl
  rw [run_cons, step?_of_outside h.outside, hopen, Option.bind_some]

/-- A value in front of the next mark becomes the last item. -/
theorem run_item {next : Awaiting} (hnext : next = .value ∨ next = .valueOrClose) {v : Json}
    (hv : Reads v.text.toList v.reread) (rest : List Json) :
    (r.inArray items next).run (v.text.toList ++ itemsTail rest) =
      v.reread.bind fun w => (r.inArray (w :: items) .separator).run (itemsTail rest) := by
  obtain ⟨c, tail, htail, hmark⟩ := exists_mark_itemsTail rest
  rw [htail]
  exact (hv _ ⟨rfl, hnext⟩).2 c tail hmark

/-- A key and a value in front of the next mark become the last field. -/
theorem run_field {next : Awaiting} (hnext : next = .key ∨ next = .keyOrClose) {k : String}
    {v : Json} (hv : Reads v.text.toList v.reread) (rest : List (String × Json)) :
    (r.inObject fields none next).run (fieldText (k, v) ++ fieldsTail rest) =
      v.reread.bind fun w =>
        (r.inObject ((k, w) :: fields) none .separator).run (fieldsTail rest) := by
  obtain ⟨c, tail, htail, hmark⟩ := exists_mark_fieldsTail rest
  have hkey : (r.inObject fields none next).string? (some k) =
      some (r.inObject fields (some k) .colon) := by
    rcases hnext with rfl | rfl <;> rfl
  have hcolon : (r.inObject fields (some k) .colon).step? ':' =
      some (r.inObject fields (some k) .value) := rfl
  rw [fieldText, List.append_assoc, run_append, run_quote rfl, hkey, Option.bind_some,
    List.cons_append, run_cons, hcolon, Option.bind_some, htail]
  exact (hv _ ⟨rfl, .inl rfl⟩).2 c tail hmark

end Reader

mutual

/-- Every text is read as its value, up to what numbers are read as. -/
theorem reads_text : (v : Json) → Reads v.text.toList v.reread
  | .null => isWord_null.reads
  | .bool b => by
      have h := (isWord_bool b).reads
      cases b <;> exact h
  | .number n => n.isWord_text.reads
  | .string s => reads_quote s
  | .array [] => reads_of_run fun r hr => (hr.run_open_array _).trans rfl
  | .array (v :: rest) => by
      refine reads_of_run fun r hr => ?_
      rw [toList_text_array, hr.run_open_array, run_item (.inr rfl) (reads_text v)]
      simp only [run_itemsTail rest, reread, rereadItems]
      cases v.reread <;> simp [Function.comp_def]
  | .object [] => reads_of_run fun r hr => (hr.run_open_object _).trans rfl
  | .object ((k, v) :: rest) => by
      refine reads_of_run fun r hr => ?_
      rw [toList_text_object, hr.run_open_object, run_field (.inr rfl) (reads_text v)]
      simp only [run_fieldsTail rest, reread, rereadFields]
      cases v.reread <;> simp [Function.comp_def]
  | .meaningless => isWord_null.reads

theorem run_itemsTail : (items : List Json) → ∀ (r : Reader) (before : List Json),
    (r.inArray before .separator).run (itemsTail items) =
      (rereadItems items).map fun values => r.accept (.array (before.reverse ++ values))
  | [], r, before => by
      rw [rereadItems, Option.map_some, List.append_nil]
      rfl
  | v :: rest, r, before => by
      have hcomma : (r.inArray before .separator).step? ',' = some (r.inArray before .value) := rfl
      rw [itemsTail, List.flatMap_cons, List.append_assoc, List.cons_append, run_cons, hcomma,
        Option.bind_some]
      refine (run_item (.inl rfl) (reads_text v) rest).trans ?_
      simp only [run_itemsTail rest, rereadItems]
      cases v.reread <;> simp [Function.comp_def]

theorem run_fieldsTail : (fields : List (String × Json)) →
    ∀ (r : Reader) (before : List (String × Json)),
    (r.inObject before none .separator).run (fieldsTail fields) =
      (rereadFields fields).map fun values => r.accept (.object (before.reverse ++ values))
  | [], r, before => by
      rw [rereadFields, Option.map_some, List.append_nil]
      rfl
  | (k, v) :: rest, r, before => by
      have hcomma : (r.inObject before none .separator).step? ',' =
          some (r.inObject before none .key) := rfl
      rw [fieldsTail, List.flatMap_cons, List.append_assoc, List.cons_append, run_cons, hcomma,
        Option.bind_some]
      refine (run_field (.inl rfl) (reads_text v) rest).trans ?_
      simp only [run_fieldsTail rest, rereadFields]
      cases v.reread <;> simp [Function.comp_def]

end

theorem ofText?_text (v : Json) : ofText? v.text = v.reread :=
  (reads_text v).ofText?

end Json

end Storyboard
