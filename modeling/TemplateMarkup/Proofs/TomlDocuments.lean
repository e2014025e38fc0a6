import TemplateMarkup.Proofs.TomlStrings
import TemplateMarkup.Toml.Document

/-! # Documents read back as they were written

A value that the writer writes reads back in front of the end of its line, and so a line with
a key adds this key and its value to the table that the line belongs to. The number that
bounds the reader is never less than the text that is left, so it is never used up. -/

namespace TemplateMarkup.Toml

variable {text rest : List Char} {bound depth : Nat}

/-! ## Values -/

/-- A character that ends a gap between values. -/
def EndsGap (c : Char) : Prop := c ≠ '\n' ∧ c ≠ '\r' ∧ c ≠ '#' ∧ isBlank c = false

theorem skipGap_cons {c : Char} (h : EndsGap c) : skipGap false (c :: rest) = some (c :: rest) := by
  obtain ⟨hline, hreturn, hcomment, hblank⟩ := h
  simp [skipGap, hline, hreturn, hcomment, hblank]

theorem writeString_cons (text : List Char) :
    ∃ quote body, writeString text = quote :: body ∧ (quote = '"' ∨ quote = '\'') := by
  have hstyle := QuoteStyle.forText_mem text
  unfold writeString
  generalize QuoteStyle.forText text = style at hstyle
  simp only [List.mem_cons, List.not_mem_nil, or_false] at hstyle
  rcases hstyle with rfl | rfl | rfl | rfl
  · exact ⟨'"', _, rfl, .inl rfl⟩
  · exact ⟨'\'', _, rfl, .inr rfl⟩
  · exact ⟨'"', _, rfl, .inl rfl⟩
  · exact ⟨'\'', _, rfl, .inr rfl⟩

theorem endsGap_quote {quote : Char} (h : quote = '"' ∨ quote = '\'') : EndsGap quote := by
  rcases h with rfl | rfl <;> simp [EndsGap, isBlank]

theorem readValue_string (text : List Char) (hmark : rest.head? ≠ some '"')
    (happostrophe : rest.head? ≠ some '\'') :
    readValue (bound + 1) depth (writeString text ++ rest) = some (.string text, rest) := by
  have hread := readString_writeString text hmark happostrophe
  obtain ⟨quote, body, hwritten, hquote⟩ := writeString_cons text
  rw [hwritten] at hread ⊢
  rw [List.cons_append] at hread ⊢
  rcases hquote with rfl | rfl <;> simp [readValue, hread]

/-! ## Arrays -/

theorem skipGap_line (cs : List Char) : skipGap false ('\n' :: cs) = skipGap false cs := by
  simp [skipGap]

/-- The end of a line and the blanks that the next element stands behind. -/
theorem skipGap_indent (cs : List Char) :
    skipGap false ('\n' :: ("    ".toList ++ cs)) = skipGap false cs := by
  simp [skipGap, isBlank]

theorem endsGap_comma : EndsGap ',' := by simp [EndsGap, isBlank]

theorem endsGap_bracket : EndsGap ']' := by simp [EndsGap, isBlank]

/-- No string closes an array. -/
theorem writeString_ne_bracket (text cs more : List Char) : writeString text ++ cs ≠ ']' :: more := by
  obtain ⟨quote, body, hwritten, hquote⟩ := writeString_cons text
  rw [hwritten]
  intro h
  rcases hquote with rfl | rfl <;> exact absurd (List.cons.inj h).1 (by decide)

/-- An element with a comma behind it, and the elements after the comma. -/
theorem readElements_comma (text : List Char) :
    readElements (bound + 2) depth (writeString text ++ ',' :: rest) =
      ((skipGap false rest).bind (readElements (bound + 1) depth)).map
        fun (values, rest) => (.string text :: values, rest) := by
  have hvalue : readValue (bound + 1) depth (writeString text ++ ',' :: rest) =
      some (.string text, ',' :: rest) := readValue_string text (by simp) (by simp)
  rw [readElements]
  · simp only [hvalue, skipGap_cons endsGap_comma, Option.bind_eq_bind, Option.bind_some]
    rw [← Option.bind_assoc]
    cases (skipGap false rest).bind (readElements (bound + 1) depth) <;> rfl
  · intro more h
    exact writeString_ne_bracket _ _ _ h

/-- An element with the closing bracket behind it. -/
theorem readElements_last (text : List Char) :
    readElements (bound + 2) depth (writeString text ++ ']' :: rest) =
      some ([.string text], rest) := by
  have hvalue : readValue (bound + 1) depth (writeString text ++ ']' :: rest) =
      some (.string text, ']' :: rest) := readValue_string text (by simp) (by simp)
  rw [readElements]
  · simp only [hvalue, skipGap_cons endsGap_bracket, Option.bind_eq_bind, Option.bind_some]
    rfl
  · intro more h
    exact writeString_ne_bracket _ _ _ h

/-- The lines of an array's elements. -/
def elementLines (texts : List (List Char)) : List Char :=
  texts.flatMap fun s => "    ".toList ++ writeString s ++ [',', '\n']

/-- Elements on lines of their own read back, each with one step of the bound. -/
theorem readElements_lines (texts : List (List Char)) (hbound : texts.length < bound) :
    (skipGap false ('\n' :: elementLines texts ++ ']' :: rest)).bind (readElements bound depth) =
      some (texts.map .string, rest) := by
  induction texts generalizing bound with
  | nil =>
    obtain ⟨bound, rfl⟩ := Nat.exists_eq_succ_of_ne_zero (by omega : bound ≠ 0)
    have hgap : skipGap false ('\n' :: elementLines [] ++ ']' :: rest) = some (']' :: rest) :=
      (skipGap_line (']' :: rest)).trans (skipGap_cons endsGap_bracket)
    rw [hgap, Option.bind_some]
    simp [readElements]
  | cons text texts ih =>
    simp only [List.length_cons] at hbound
    obtain ⟨bound, rfl⟩ : ∃ more, bound = more + 2 := ⟨bound - 2, by omega⟩
    have hrest : texts.length < bound + 1 := by omega
    have hlines : '\n' :: elementLines (text :: texts) ++ ']' :: rest = '\n' :: ("    ".toList ++
        (writeString text ++ ',' :: ('\n' :: elementLines texts ++ ']' :: rest))) := by
      simp [elementLines]
    obtain ⟨quote, body, hwritten, hquote⟩ := writeString_cons text
    have hgap : skipGap false ('\n' :: elementLines (text :: texts) ++ ']' :: rest) =
        some (writeString text ++ ',' :: ('\n' :: elementLines texts ++ ']' :: rest)) := by
      rw [hlines, skipGap_indent, hwritten]
      exact skipGap_cons (endsGap_quote hquote)
    rw [hgap, Option.bind_some, readElements_comma, ih hrest]
    rfl

/-! ## What values are written as -/

/-- The text begins with no blank, and it reads as the value in front of the end of its line. -/
structure Denotes (written : List Char) (value : Value) : Prop where
  first : ∃ c cs, written = c :: cs ∧ isBlank c = false
  reads {bound : Nat} (rest : List Char) : written.length ≤ bound →
    readValue bound depthLimit (written ++ '\n' :: rest) = some (value, '\n' :: rest)

theorem denotes_string (text : List Char) : Denotes (writeString text) (.string text) where
  first := by
    obtain ⟨quote, body, hwritten, hquote⟩ := writeString_cons text
    exact ⟨quote, body, hwritten, (endsGap_quote hquote).2.2.2⟩
  reads := by
    intro bound rest hbound
    obtain ⟨quote, body, hwritten, -⟩ := writeString_cons text
    obtain ⟨bound, rfl⟩ : ∃ more, bound = more + 1 := by
      rw [hwritten, List.length_cons] at hbound
      exact ⟨bound - 1, by omega⟩
    exact readValue_string text (by simp) (by simp)

theorem readScalar_boolean (b : Bool) :
    readScalar (writeBoolean b ++ '\n' :: rest) = some (.boolean b, '\n' :: rest) := by
  have htext : scalarText (writeBoolean b ++ '\n' :: rest) = writeBoolean b := by
    cases b <;> simp [writeBoolean, scalarText, isWordChar, isBlank]
  have hscalar : scalar? (writeBoolean b) = some (.boolean b) := by
    cases b <;> simp [writeBoolean, scalar?]
  simp only [readScalar, htext, hscalar, List.drop_left, Option.map_some]

theorem denotes_boolean (b : Bool) : Denotes (writeBoolean b) (.boolean b) where
  first := by cases b <;> simp [writeBoolean, isBlank]
  reads := by
    intro bound rest hbound
    obtain ⟨bound, rfl⟩ : ∃ more, bound = more + 1 := by
      cases b <;> simp [writeBoolean] at hbound <;> exact ⟨bound - 1, by omega⟩
    have hread : readScalar (writeBoolean b ++ '\n' :: rest) = _ := readScalar_boolean b
    cases b <;> simpa [writeBoolean, readValue] using hread

theorem length_le_elementLines (texts : List (List Char)) :
    texts.length ≤ (elementLines texts).length := by
  induction texts with
  | nil => exact Nat.le_refl 0
  | cons text texts ih => simp [elementLines] at ih ⊢; omega

/-- A bracket and what reads as the elements behind it. -/
theorem readValue_array {cs : List Char} {elements : List Value}
    (h : (skipGap false cs).bind (readElements bound 79) = some (elements, rest)) :
    readValue (bound + 1) depthLimit ('[' :: cs) = some (.array elements, rest) := by
  have hdepth : depthLimit = 79 + 1 := rfl
  rw [hdepth, readValue]
  simp only [Option.bind_eq_bind]
  rw [← Option.bind_assoc, h]
  rfl

theorem denotes_strings (texts : List (List Char)) :
    Denotes (writeStrings texts) (.array (texts.map .string)) where
  first := by
    unfold writeStrings
    split <;> exact ⟨'[', _, rfl, by decide⟩
  reads := by
    intro bound rest hbound
    have hlong : texts.length + 2 ≤ bound := by
      refine Nat.le_trans ?_ hbound
      have hlines := length_le_elementLines texts
      unfold writeStrings
      split
      · decide
      · next text =>
        obtain ⟨quote, body, hwritten, -⟩ := writeString_cons text
        simp [hwritten]
      · simp [elementLines] at hlines ⊢
        omega
    obtain ⟨bound, rfl⟩ : ∃ more, bound = more + 2 := ⟨bound - 2, by omega⟩
    unfold writeStrings
    split
    · refine readValue_array ?_
      rw [List.append_eq, List.singleton_append, skipGap_cons endsGap_bracket, Option.bind_some]
      simp [readElements]
    · next text =>
      obtain ⟨quote, body, hwritten, hquote⟩ := writeString_cons text
      obtain ⟨bound, rfl⟩ : ∃ more, bound = more + 1 := ⟨bound - 1, by simp at hlong; omega⟩
      refine readValue_array ?_
      have hgap : skipGap false (writeString text ++ ']' :: '\n' :: rest) =
          some (writeString text ++ ']' :: '\n' :: rest) := by
        rw [hwritten]
        exact skipGap_cons (endsGap_quote hquote)
      simp only [List.append_eq, List.append_assoc, List.singleton_append, hgap, Option.bind_some]
      exact readElements_last text
    · refine readValue_array ?_
      have hlines : (skipGap false ('\n' :: elementLines texts ++ ']' :: '\n' :: rest)).bind
          (readElements (bound + 1) 79) = some (texts.map .string, '\n' :: rest) :=
        readElements_lines texts (by omega)
      rw [← hlines]
      simp [elementLines]

/-! ## Lines -/

/-- Keys that need no quotes. -/
structure IsBareKey (key : String) : Prop where
  ne_nil : key.toList ≠ []
  bare : ∀ c ∈ key.toList, isBareKeyChar c = true

theorem endsGap_of_bare {c : Char} (h : isBareKeyChar c = true) : EndsGap c ∧ c ≠ '[' := by
  refine ⟨⟨?_, ?_, ?_, ?_⟩, ?_⟩
  · rintro rfl
    exact absurd h (by decide)
  · rintro rfl
    exact absurd h (by decide)
  · rintro rfl
    exact absurd h (by decide)
  · cases hb : isBlank c with
    | false => rfl
    | true =>
      simp only [isBlank, Bool.or_eq_true, beq_iff_eq] at hb
      rcases hb with rfl | rfl <;> exact absurd h (by decide)
  · rintro rfl
    exact absurd h (by decide)

theorem IsBareKey.cons {key : String} (h : IsBareKey key) :
    ∃ c cs, key.toList = c :: cs ∧ EndsGap c ∧ c ≠ '[' := by
  obtain ⟨c, cs, hkey⟩ := List.exists_cons_of_ne_nil h.ne_nil
  exact ⟨c, cs, hkey, endsGap_of_bare (h.bare c (by rw [hkey]; exact List.mem_cons_self))⟩

/-- A bare key with something else behind it. -/
theorem readDottedKey_bare {key : String} (h : IsBareKey key) {d : Char}
    (hbare : isBareKeyChar d = false) (hdot : ∀ more, skipBlanks (d :: rest) ≠ '.' :: more) :
    readDottedKey depthLimit (key.toList ++ d :: rest) =
      some (([], key.toList), skipBlanks (d :: rest)) := by
  have hdepth : depthLimit = 79 + 1 := rfl
  have hkey : (key.toList ++ d :: rest).takeWhile isBareKeyChar = key.toList := by
    rw [List.takeWhile_append_of_pos h.bare, List.takeWhile_cons_of_neg (by simp [hbare]),
      List.append_nil]
  have hread : readKey (key.toList ++ d :: rest) = some (key.toList, d :: rest) := by
    unfold readKey
    rw [hkey]
    split
    · next hnil => exact absurd hnil h.ne_nil
    · rw [List.drop_left]
  rw [hdepth, readDottedKey, hread]
  simp only [Option.bind_eq_bind, Option.bind_some]
  rfl

theorem endLine_line : endLine ('\n' :: rest) = some rest := by
  simp [endLine, skipBlanks, isBlank]

theorem skipBlanks_space {c : Char} (h : isBlank c = false) :
    skipBlanks (' ' :: c :: rest) = c :: rest := by
  have hspace : isBlank ' ' = true := rfl
  simp [skipBlanks, hspace, h]

theorem skipBlanks_cons {c : Char} (h : isBlank c = false) : skipBlanks (c :: rest) = c :: rest := by
  simp [skipBlanks, h]

theorem after?_cons (c : Char) : after? c (c :: rest) = some rest := if_pos rfl

namespace Document

variable {d : Document} {es : Entries} {key : String} {written : List Char} {value : Value}

/-- A line with a key and its value. -/
theorem readEntry_writeEntry (hkey : IsBareKey key) (hvalue : Denotes written value)
    (hbound : written.length ≤ bound)
    (hput : d.entries.modify d.header (·.addDotted [] key.toList value) = some es) :
    d.readEntry bound (writeEntry key written ++ rest) = some ({ d with entries := es }, rest) := by
  obtain ⟨c, cs, hwritten, hblank⟩ := hvalue.first
  have hline : writeEntry key written ++ rest =
      key.toList ++ ' ' :: '=' :: ' ' :: (written ++ '\n' :: rest) := by simp [writeEntry]
  have hequals : skipBlanks (' ' :: '=' :: ' ' :: (written ++ '\n' :: rest)) =
      '=' :: ' ' :: (written ++ '\n' :: rest) := skipBlanks_space rfl
  have hspace : skipBlanks (' ' :: (written ++ '\n' :: rest)) = written ++ '\n' :: rest := by
    rw [hwritten]
    exact skipBlanks_space hblank
  have hread : readDottedKey depthLimit (writeEntry key written ++ rest) =
      some (([], key.toList), '=' :: ' ' :: (written ++ '\n' :: rest)) := by
    rw [hline, readDottedKey_bare hkey rfl (by simp [hequals]), hequals]
  have hmark : skipBlanks ('=' :: ' ' :: (written ++ '\n' :: rest)) =
      '=' :: ' ' :: (written ++ '\n' :: rest) := skipBlanks_cons rfl
  simp only [readEntry, hread, Option.bind_eq_bind, Option.bind_some, hmark, after?_cons, hspace,
    hvalue.reads rest hbound, hput, endLine_line]
  rfl

/-- A table's header. -/
theorem readHeader_writeHeader (hkey : IsBareKey key)
    (hopen : d.entries.openTable key.toList = some es) :
    d.readHeader false (key.toList ++ ']' :: '\n' :: rest) = some (⟨es, [key.toList]⟩, rest) := by
  obtain ⟨c, cs, hcons, hends, -⟩ := hkey.cons
  have hfront : skipBlanks (key.toList ++ ']' :: '\n' :: rest) =
      key.toList ++ ']' :: '\n' :: rest := by
    rw [hcons]
    exact skipBlanks_cons hends.2.2.2
  have hbracket : skipBlanks (']' :: '\n' :: rest) = ']' :: '\n' :: rest := skipBlanks_cons rfl
  have hread : readDottedKey depthLimit (key.toList ++ ']' :: '\n' :: rest) =
      some (([], key.toList), ']' :: '\n' :: rest) := by
    rw [readDottedKey_bare hkey rfl (by simp [hbracket]), hbracket]
  simp only [readHeader, hfront, hread, Option.bind_eq_bind, Option.bind_some, hbracket, after?_cons,
    Bool.false_eq_true, if_false, Option.pure_def, Entries.modify, hopen, endLine_line]
  rfl

/-- A line with a key takes one step of the bound. -/
theorem readLines_writeEntry (hkey : IsBareKey key) (hvalue : Denotes written value)
    (hbound : written.length ≤ bound)
    (hput : d.entries.modify d.header (·.addDotted [] key.toList value) = some es) :
    readLines (bound + 1) d (writeEntry key written ++ rest) =
      readLines bound { d with entries := es } rest := by
  have hentry : d.readEntry bound (writeEntry key written ++ rest) = _ :=
    readEntry_writeEntry hkey hvalue hbound hput
  obtain ⟨c, cs, hcons, hends, hbracket⟩ := hkey.cons
  have hline : writeEntry key written ++ rest =
      c :: (cs ++ " = ".toList ++ written ++ '\n' :: rest) := by simp [writeEntry, hcons]
  rw [hline] at hentry ⊢
  rw [readLines, skipGap_cons hends]
  simp only [Option.bind_eq_bind, Option.bind_some]
  split
  · next heq => cases heq
  · next heq => exact absurd (List.cons.inj heq).1 hbracket
  · next heq => exact absurd (List.cons.inj heq).1 hbracket
  · rw [hentry, Option.bind_some]

/-- So does the line of a header. -/
theorem readLines_writeHeader (hkey : IsBareKey key)
    (hopen : d.entries.openTable key.toList = some es) :
    readLines (bound + 1) d (writeHeader key ++ rest) = readLines bound ⟨es, [key.toList]⟩ rest := by
  have hheader : d.readHeader false (key.toList ++ ']' :: '\n' :: rest) = _ :=
    readHeader_writeHeader hkey hopen
  obtain ⟨c, cs, hcons, -, hbracket⟩ := hkey.cons
  have hline : writeHeader key ++ rest = '[' :: (key.toList ++ ']' :: '\n' :: rest) := by
    simp [writeHeader]
  have hgap : EndsGap '[' := by simp [EndsGap, isBlank]
  rw [hline, readLines, skipGap_cons hgap]
  rw [hcons] at hheader ⊢
  simp only [Option.bind_eq_bind, Option.bind_some]
  split
  · next heq => cases heq
  · next heq => exact absurd (List.cons.inj (List.cons.inj heq).2).1 hbracket
  · next heq =>
    obtain rfl := (List.cons.inj heq).2
    rw [hheader, Option.bind_some]
  · next hother => exact (hother _ rfl).elim

theorem readLines_line : readLines (bound + 1) d ('\n' :: rest) = readLines (bound + 1) d rest := by
  rw [readLines, readLines, skipGap_line]

theorem readLines_nil : readLines (bound + 1) d [] = some d.entries := by
  rw [readLines]
  simp [skipGap]

end Document

/-! ## Tables -/

/-- A key with its value, and the text that is written for the value. -/
structure Field where
  key : String
  written : List Char
  value : Value

namespace Field

def line (f : Field) : List Char := writeEntry f.key f.written

def entry (f : Field) : List Char × Value := (f.key.toList, f.value)

structure Valid (f : Field) : Prop where
  bare : IsBareKey f.key
  denotes : Denotes f.written f.value

theorem length_line (f : Field) : f.written.length + 1 ≤ f.line.length := by
  simp [line, writeEntry]
  omega

end Field

namespace Entries

variable {es more : Entries} {key : List Char} {value : Value}

theorem get?_eq_none (h : key ∉ es.map Prod.fst) : es.get? key = none := by
  refine List.lookup_eq_none_iff.mpr fun e he => ?_
  have hne : key ≠ e.1 := fun heq => h (heq ▸ List.mem_map_of_mem he)
  simpa using hne

/-- A key is set behind the entries that do not have it. -/
theorem set_append (h : es.get? key = none) : (es ++ more).set key value = es ++ more.set key value := by
  induction es with
  | nil => rfl
  | cons e es ih =>
    obtain ⟨k, v⟩ := e
    have hne : ¬k = key := by
      rintro rfl
      simp [get?] at h
    have hrest : get? es key = none := by
      have hbeq : (key == k) = false := by simpa using Ne.symm hne
      simpa [get?, List.lookup_cons, hbeq] using h
    simp only [List.cons_append, set, hne, if_false]
    rw [ih hrest]

theorem get?_append_self (h : es.get? key = none) :
    get? (es ++ [(key, value)]) key = some value := by
  unfold get? at h ⊢
  simp [List.lookup_append, h]

theorem set_new (h : es.get? key = none) : es.set key value = es ++ [(key, value)] := by
  have happend : (es ++ []).set key value = es ++ Entries.set [] key value := set_append h
  rwa [List.append_nil] at happend

theorem add?_new (h : es.get? key = none) : es.add? key value = some (es ++ [(key, value)]) := by
  simp [add?, h, set_new h]

/-- The way to a table that stands last leads into it. -/
theorem modify_last {inner inner' : Entries} {change : Entries → Option Entries}
    (h : es.get? key = none) (hchange : change inner = some inner') :
    modify [key] change (es ++ [(key, .table .header inner)]) =
      some (es ++ [(key, .table .header inner')]) := by
  have hget : get? (es ++ [(key, .table .header inner)]) key = some (.table .header inner) :=
    get?_append_self h
  have hset : set (es ++ [(key, .table .header inner)]) key (.table .header inner') =
      es ++ [(key, .table .header inner')] := by
    rw [set_append h]
    simp [set]
  simp only [modify, hget, hchange, Option.bind_eq_bind, Option.bind_some, hset, Option.pure_def]

/-- A header opens a table behind the entries of the document. -/
theorem openTable_new (h : es.get? key = none) :
    es.openTable key = some (es ++ [(key, .table .header [])]) := by
  simp [openTable, h, set_new h]

end Entries

/-- Where the keys of the next lines are added: at the end of the document or of the table that
stands last in it. -/
def Collects (header : List (List Char)) (wrap : Entries → Entries) : Prop :=
  ∀ {es : Entries} {key : List Char} (value : Value), es.get? key = none →
    (wrap es).modify header (·.addDotted [] key value) = some (wrap (es ++ [(key, value)]))

theorem collects_document : Collects [] id := by
  intro es key value h
  exact Entries.add?_new h

theorem collects_table {es : Entries} {table : List Char} (h : es.get? table = none) :
    Collects [table] fun inner => es ++ [(table, .table .header inner)] := by
  intro inner key value hkey
  exact Entries.modify_last h (Entries.add?_new hkey)

/-- The lines of a table are read in order. The bound stays above the length of what is left. -/
theorem readLines_fields {header : List (List Char)} {wrap : Entries → Entries}
    (hwrap : Collects header wrap) {fields : List Field} {es : Entries}
    (hvalid : ∀ f ∈ fields, f.Valid)
    (hnodup : ((es ++ fields.map Field.entry).map Prod.fst).Nodup)
    (hbound : (fields.flatMap Field.line ++ rest).length ≤ bound) :
    ∃ left, rest.length ≤ left ∧
      Document.readLines (bound + 1) ⟨wrap es, header⟩ (fields.flatMap Field.line ++ rest) =
        Document.readLines (left + 1) ⟨wrap (es ++ fields.map Field.entry), header⟩ rest := by
  induction fields generalizing es bound with
  | nil => exact ⟨bound, hbound, by simp⟩
  | cons f fields ih =>
    have hlength := f.length_line
    rw [List.flatMap_cons, List.append_assoc, List.length_append] at hbound
    obtain ⟨bound, rfl⟩ : ∃ more, bound = more + 1 := ⟨bound - 1, by omega⟩
    have happend : es ++ (f :: fields).map Field.entry =
        es ++ [f.entry] ++ fields.map Field.entry := by simp
    have hnew : es.get? f.key.toList = none := by
      refine Entries.get?_eq_none fun hmem => ?_
      rw [List.map_append] at hnodup
      exact (List.nodup_append.mp hnodup).2.2 _ hmem _ List.mem_cons_self rfl
    have hwritten : f.written.length ≤ bound + 1 := by omega
    have hrest : (fields.flatMap Field.line ++ rest).length ≤ bound := by omega
    have hvalid' : ∀ g ∈ fields, g.Valid := fun g hg => hvalid g (List.mem_cons_of_mem f hg)
    obtain ⟨left, hleft, hread⟩ := ih hvalid' (happend ▸ hnodup) hrest
    refine ⟨left, hleft, ?_⟩
    have hf := hvalid f List.mem_cons_self
    rw [happend, ← hread, List.flatMap_cons, List.append_assoc]
    exact Document.readLines_writeEntry hf.bare hf.denotes hwritten (hwrap f.value hnew)

end TemplateMarkup.Toml
