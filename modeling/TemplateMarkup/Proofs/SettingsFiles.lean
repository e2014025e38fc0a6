import TemplateMarkup.Proofs.TomlDocuments
import TemplateMarkup.Settings

/-! # Settings files

The saved text of some settings is cut at its top-level keys. Whichever pieces are kept, in
their order, the text that they make up reads as these settings, with the default for each
key that is gone. With all pieces it is the saved text. -/

namespace TemplateMarkup.Settings

open Toml (Document Entries Field Value)

/-! ## What a settings file says -/

def optionFields (o : Options) : List Field :=
  [⟨"design_time", Toml.writeBoolean o.designTime, .boolean o.designTime⟩,
   ⟨"text_tag_name", Toml.writeString o.textTagName.toList, .string o.textTagName.toList⟩,
   ⟨"script_tag_name", Toml.writeString o.scriptTagName.toList, .string o.scriptTagName.toList⟩,
   ⟨"html_script_type", Toml.writeString o.htmlScriptType.toList, .string o.htmlScriptType.toList⟩,
   ⟨"void_elements", Toml.writeStrings (o.voidElements.map String.toList),
    .array ((o.voidElements.map String.toList).map .string)⟩]

def nestingFields (n : Nesting) : List Field :=
  [⟨"start", Toml.writeString n.opener.toList, .string n.opener.toList⟩,
   ⟨"end", Toml.writeString n.closer.toList, .string n.closer.toList⟩,
   ⟨"case_sensitive", Toml.writeBoolean n.caseSensitive, .boolean n.caseSensitive⟩]

/-- The table of the nesting sequences. -/
def nestingText (n : Nesting) : List Char :=
  Toml.writeHeader "nesting" ++ (nestingFields n).flatMap Field.line

def nestingTable (n : Nesting) : Value := .table .header ((nestingFields n).map Field.entry)

/-- The table of the nesting sequences with the empty line in front of it, which has no key. -/
def nestingPieces (nesting? : Option Nesting) : List (Option String × List Char) :=
  (nesting?.map fun n => [(none, ['\n']), (some "nesting", nestingText n)]).getD []

/-- The saved text cut at its top-level keys. -/
def pieces (s : Settings) : List (Option String × List Char) :=
  (optionFields s.options).map (fun f => (some f.key, f.line)) ++ nestingPieces s.nesting?

/-- The text of the pieces that are kept. -/
def textOf (pieces : List (Option String × List Char)) (kept : Option String → Bool) : List Char :=
  (pieces.filter fun piece => kept piece.1).flatMap Prod.snd

/-- The settings with the defaults for the keys that are not kept. -/
def keeping (s : Settings) (kept : String → Bool) : Settings :=
  let d : Options := {}
  { options := {
      designTime := if kept "design_time" then s.options.designTime else d.designTime
      textTagName := if kept "text_tag_name" then s.options.textTagName else d.textTagName
      scriptTagName := if kept "script_tag_name" then s.options.scriptTagName else d.scriptTagName
      htmlScriptType := if kept "html_script_type" then s.options.htmlScriptType else d.htmlScriptType
      voidElements := if kept "void_elements" then s.options.voidElements else d.voidElements }
    nesting? := if kept "nesting" then s.nesting? else none }

def nestingEntries (nesting? : Option Nesting) : List (String × Value) :=
  (nesting?.map fun n => [("nesting", nestingTable n)]).getD []

/-- The top-level keys and their values. -/
def table (s : Settings) : List (String × Value) :=
  (optionFields s.options).map (fun f => (f.key, f.value)) ++ nestingEntries s.nesting?

/-- The entries of the keys that are kept. -/
def entriesOf (table : List (String × Value)) (kept : String → Bool) : Entries :=
  (table.filter fun entry => kept entry.1).map fun entry => (entry.1.toList, entry.2)

theorem pieces_text (s : Settings) : s.pieces.flatMap Prod.snd = s.toToml.toList := by
  cases h : s.nesting? <;>
    simp [pieces, nestingPieces, toToml, h, optionFields, optionLines, nestingText, nestingFields,
      nestingLines, Field.line]

theorem keeping_all (s : Settings) : (s.keeping fun _ => true) = s := rfl

/-! ## Reading the text -/

theorem bare_keys {key : String} (h : key ∈ keys ++ nestingKeys) : Toml.IsBareKey key := by
  have hall : (keys ++ nestingKeys).all (fun key =>
      !key.toList.isEmpty && key.toList.all Toml.isBareKeyChar) = true := by rfl
  have hkey := List.all_eq_true.mp hall key h
  rw [Bool.and_eq_true, List.all_eq_true] at hkey
  exact ⟨by simpa using hkey.1, hkey.2⟩

theorem valid_optionFields (o : Options) : ∀ f ∈ optionFields o, f.Valid := by
  intro f hf
  simp only [optionFields, List.mem_cons, List.not_mem_nil, or_false] at hf
  rcases hf with rfl | rfl | rfl | rfl | rfl
  · exact ⟨bare_keys (by simp [keys]), Toml.denotes_boolean _⟩
  · exact ⟨bare_keys (by simp [keys]), Toml.denotes_string _⟩
  · exact ⟨bare_keys (by simp [keys]), Toml.denotes_string _⟩
  · exact ⟨bare_keys (by simp [keys]), Toml.denotes_string _⟩
  · exact ⟨bare_keys (by simp [keys]), Toml.denotes_strings _⟩

theorem valid_nestingFields (n : Nesting) : ∀ f ∈ nestingFields n, f.Valid := by
  intro f hf
  simp only [nestingFields, List.mem_cons, List.not_mem_nil, or_false] at hf
  rcases hf with rfl | rfl | rfl
  · exact ⟨bare_keys (by simp [nestingKeys]), Toml.denotes_string _⟩
  · exact ⟨bare_keys (by simp [nestingKeys]), Toml.denotes_string _⟩
  · exact ⟨bare_keys (by simp [nestingKeys]), Toml.denotes_boolean _⟩

/-- No piece begins with a byte order mark. -/
theorem head_pieces (s : Settings) : ∀ piece ∈ s.pieces, piece.2.head? ≠ some '\ufeff' := by
  intro piece hpiece
  rcases List.mem_append.mp hpiece with hoption | hnesting
  · obtain ⟨f, hf, rfl⟩ := List.mem_map.mp hoption
    have hvalid := (valid_optionFields s.options f hf).bare
    obtain ⟨c, cs, hkey, -⟩ := hvalid.cons
    have hbare := hvalid.bare c (by rw [hkey]; exact List.mem_cons_self)
    have hline : f.line.head? = some c := by simp [Field.line, Toml.writeEntry, hkey]
    rw [hline]
    intro h
    rw [Option.some.inj h] at hbare
    exact absurd hbare (by decide)
  · cases hn : s.nesting? with
    | none => simp [hn, nestingPieces] at hnesting
    | some n =>
      simp only [hn, nestingPieces, Option.map_some, Option.getD_some, List.mem_cons,
        List.not_mem_nil, or_false] at hnesting
      rcases hnesting with rfl | rfl <;> simp [nestingText, Toml.writeHeader]

theorem head_textOf (s : Settings) (kept : Option String → Bool) :
    (textOf s.pieces kept).head? ≠ some '\ufeff' := by
  intro h
  rw [textOf, List.head?_flatMap] at h
  obtain ⟨piece, hpiece, hhead⟩ := List.exists_of_findSome?_eq_some h
  exact head_pieces s piece (List.mem_filter.mp hpiece).1 hhead

/-- The table of the nesting sequences is added behind the entries in front of it. -/
theorem readLines_nestingText {es : Entries} {bound : Nat} (n : Nesting)
    (hnew : es.get? "nesting".toList = none) (hbound : (nestingText n).length ≤ bound) :
    Document.readLines (bound + 1) ⟨es, []⟩ (nestingText n) =
      some (es ++ [("nesting".toList, nestingTable n)]) := by
  have hnodup : (([] ++ (nestingFields n).map Field.entry).map Prod.fst).Nodup := by
    simp [nestingFields, Field.entry]
  rw [nestingText, List.length_append] at hbound
  have hheader : 0 < (Toml.writeHeader "nesting").length := by simp [Toml.writeHeader]
  obtain ⟨bound, rfl⟩ : ∃ more, bound = more + 1 := ⟨bound - 1, by omega⟩
  have hfields : ((nestingFields n).flatMap Field.line ++ []).length ≤ bound := by
    rw [List.append_nil]
    omega
  obtain ⟨left, -, hread⟩ := Toml.readLines_fields (Toml.collects_table hnew)
    (valid_nestingFields n) hnodup hfields
  rw [nestingText, Document.readLines_writeHeader (bare_keys (by simp [keys]))
    (Entries.openTable_new hnew)]
  rw [List.append_nil] at hread
  exact hread.trans Document.readLines_nil

/-- The keys of the options are different. -/
theorem nodup_optionFields (o : Options) :
    ((optionFields o).map fun f => f.entry.1).Nodup := by
  simp [optionFields, Field.entry]

theorem readLines_blank {d : Document} {bound : Nat} {rest : List Char} (blank : Bool) :
    Document.readLines (bound + 1) d ((if blank then ['\n'] else []) ++ rest) =
      Document.readLines (bound + 1) d rest := by
  cases blank with
  | false => rfl
  | true => exact Document.readLines_line

/-- Whatever is kept of the table and of the empty line in front of it. -/
theorem readLines_nestingPieces {es : Entries} {bound : Nat} (nesting? : Option Nesting)
    (kept : Option String → Bool) (hnew : es.get? "nesting".toList = none)
    (hbound : (textOf (nestingPieces nesting?) kept).length ≤ bound) :
    Document.readLines (bound + 1) ⟨es, []⟩ (textOf (nestingPieces nesting?) kept) =
      some (es ++ entriesOf (nestingEntries nesting?) fun key => kept (some key)) := by
  cases nesting? with
  | none =>
    rw [show entriesOf (nestingEntries none) _ = [] from rfl, List.append_nil]
    exact Document.readLines_nil
  | some n =>
    cases htable : kept (some "nesting") with
    | false =>
      have htext : textOf (nestingPieces (some n)) kept =
          (if kept none then ['\n'] else []) ++ [] := by
        cases hblank : kept none <;> simp [textOf, nestingPieces, hblank, htable]
      have hentries : entriesOf (nestingEntries (some n)) (fun key => kept (some key)) = [] := by
        simp [entriesOf, nestingEntries, htable]
      rw [htext, hentries, List.append_nil es, readLines_blank]
      exact Document.readLines_nil
    | true =>
      have htext : textOf (nestingPieces (some n)) kept =
          (if kept none then ['\n'] else []) ++ nestingText n := by
        cases hblank : kept none <;> simp [textOf, nestingPieces, hblank, htable]
      have hentries : entriesOf (nestingEntries (some n)) (fun key => kept (some key)) =
          [("nesting".toList, nestingTable n)] := by
        simp [entriesOf, nestingEntries, htable]
      rw [htext, List.length_append] at hbound
      rw [htext, hentries, readLines_blank]
      exact readLines_nestingText n hnew (by omega)

theorem read_textOf (s : Settings) (kept : Option String → Bool) :
    Toml.read (textOf s.pieces kept) = some (entriesOf s.table fun key => kept (some key)) := by
  rw [Toml.read, if_neg (head_textOf s kept)]
  let fields := (optionFields s.options).filter fun f => kept (some f.key)
  have hfields : ∀ f ∈ fields, f.Valid :=
    fun f hf => valid_optionFields s.options f (List.mem_filter.mp hf).1
  have hnodup : (([] ++ fields.map Field.entry).map Prod.fst).Nodup := by
    rw [List.nil_append, List.map_map]
    exact (nodup_optionFields s.options).sublist (List.filter_sublist.map _)
  have htext : textOf s.pieces kept =
      fields.flatMap Field.line ++ textOf (nestingPieces s.nesting?) kept := by
    simp [textOf, pieces, fields, List.filter_map, List.flatMap_map, Function.comp_def]
  have hentries : entriesOf s.table (fun key => kept (some key)) =
      fields.map Field.entry ++ entriesOf (nestingEntries s.nesting?) fun key => kept (some key) := by
    simp [entriesOf, table, fields, List.filter_map, Function.comp_def, Field.entry]
  have hnew : Entries.get? (fields.map Field.entry) "nesting".toList = none := by
    refine Entries.get?_eq_none fun hmem => ?_
    rw [List.map_map] at hmem
    have hall := (List.filter_sublist.map _).subset hmem
    simp [optionFields, Field.entry] at hall
  obtain ⟨left, hleft, hread⟩ := Toml.readLines_fields Toml.collects_document hfields hnodup
    (Nat.le_of_eq (congrArg List.length htext.symm))
  rw [hentries]
  refine Eq.trans ?_ (readLines_nestingPieces s.nesting? kept hnew hleft)
  rw [htext] at hread ⊢
  exact hread

/-! ## Looking up the keys -/

/-- A key has its value if it is kept. -/
theorem get?_kept (entries : List (String × Value)) (kept : String → Bool) (key : String) :
    (entriesOf entries kept).get? key.toList = if kept key then entries.lookup key else none := by
  induction entries with
  | nil => simp [entriesOf, Entries.get?]
  | cons entry entries ih =>
    obtain ⟨k, v⟩ := entry
    unfold entriesOf Entries.get? at ih ⊢
    by_cases hk : key = k
    · obtain rfl := hk
      cases hkept : kept key with
      | true => simp [hkept]
      | false => simpa [hkept] using ih
    · have hkey : (key == k) = false := by simpa using hk
      have hchars : (key.toList == k.toList) = false := by
        simpa using fun h => hk (String.toList_inj.mp h)
      cases hkept : kept k with
      | true => simpa [hkept, List.lookup_cons, hkey, hchars] using ih
      | false => simpa [hkept, List.lookup_cons, hkey] using ih

theorem stringsOf?_map (texts : List String) :
    stringsOf? (.array ((texts.map String.toList).map .string)) = some texts := by
  have hread : stringOf? ∘ .string ∘ String.toList = fun text => pure (id text) := by
    funext text
    simp [stringOf?]
  rw [stringsOf?, List.map_map, List.mapM_map, hread, List.mapM_pure, List.map_id]
  rfl

theorem guard_of {p : Prop} [Decidable p] (h : p) : (guard p : Option Unit) = some () := if_pos h

theorem nestingOf?_nestingTable (n : Nesting) : nestingOf? (nestingTable n) = some n := by
  have hknown : Entries.othersUsable nestingKeys ((nestingFields n).map Field.entry) = true := by
    simp [Entries.othersUsable, nestingFields, Field.entry, nestingKeys]
  have hopener : Entries.get? ((nestingFields n).map Field.entry) "start".toList =
      some (.string n.opener.toList) := by
    simp [Entries.get?, nestingFields, Field.entry]
  have hcloser : Entries.get? ((nestingFields n).map Field.entry) "end".toList =
      some (.string n.closer.toList) := by
    simp [Entries.get?, nestingFields, Field.entry, List.lookup_cons]
  have hcase : Entries.get? ((nestingFields n).map Field.entry) "case_sensitive".toList =
      some (.boolean n.caseSensitive) := by
    simp [Entries.get?, nestingFields, Field.entry, List.lookup_cons]
  rw [nestingTable, nestingOf?, guard_of hknown]
  simp only [hopener, hcloser, field, hcase, stringOf?, booleanOf?, Option.bind_eq_bind,
    Option.bind_some, Option.pure_def, String.ofList_toList]

/-- A field has the value of its key if it is kept and its default if it is not. -/
theorem field_kept {α : Type} {entries : List (String × Value)} {kept : String → Bool} {key : String}
    {default x : α} {value : Value} {read : Value → Option α}
    (hvalue : entries.lookup key = some value) (hread : read value = some x) :
    field (entriesOf entries kept) key default read = some (if kept key then x else default) := by
  rw [field, get?_kept, hvalue]
  cases kept key with
  | true => simpa using hread
  | false => rfl

theorem mem_keys_of_table (s : Settings) : ∀ entry ∈ s.table, entry.1 ∈ keys := by
  cases hn : s.nesting? <;> simp [table, optionFields, nestingEntries, hn, keys]

theorem othersUsable_entriesOf (s : Settings) (kept : String → Bool) :
    Entries.othersUsable keys (entriesOf s.table kept) = true := by
  refine List.all_eq_true.mpr fun entry hentry => ?_
  obtain ⟨e, he, rfl⟩ := List.mem_map.mp hentry
  have hkey := mem_keys_of_table s e (List.mem_filter.mp he).1
  simp [hkey]

theorem lookup_nesting (s : Settings) : s.table.lookup "nesting" = s.nesting?.map nestingTable := by
  cases hn : s.nesting? <;> simp [table, optionFields, nestingEntries, hn, List.lookup_cons]

theorem field_nesting (s : Settings) (kept : String → Bool) :
    field (entriesOf s.table kept) "nesting" none (fun v => (nestingOf? v).map some) =
      some (if kept "nesting" then s.nesting? else none) := by
  rw [field, get?_kept, lookup_nesting]
  cases kept "nesting" with
  | false => rfl
  | true =>
    cases s.nesting? with
    | none => rfl
    | some n => simp [nestingOf?_nestingTable]

theorem ofEntries?_entriesOf (s : Settings) (kept : String → Bool) :
    ofEntries? (entriesOf s.table kept) = some (s.keeping kept) := by
  have hdesign : s.table.lookup "design_time" = some (.boolean s.options.designTime) := rfl
  have htext : s.table.lookup "text_tag_name" = some (.string s.options.textTagName.toList) := rfl
  have hscript : s.table.lookup "script_tag_name" =
      some (.string s.options.scriptTagName.toList) := rfl
  have htype : s.table.lookup "html_script_type" =
      some (.string s.options.htmlScriptType.toList) := rfl
  have hvoid : s.table.lookup "void_elements" =
      some (.array ((s.options.voidElements.map String.toList).map .string)) := rfl
  have hboolean (b : Bool) : booleanOf? (.boolean b) = some b := rfl
  have hstring (text : String) : stringOf? (.string text.toList) = some text := by
    simp [stringOf?]
  rw [ofEntries?, guard_of (othersUsable_entriesOf s kept)]
  simp only [field_kept hdesign (hboolean _), field_kept htext (hstring _),
    field_kept hscript (hstring _), field_kept htype (hstring _),
    field_kept hvoid (stringsOf?_map _), field_nesting, Option.bind_eq_bind, Option.bind_some,
    Option.pure_def]
  rfl

theorem fromUTF8?_toUTF8 (text : String) : String.fromUTF8? text.toUTF8 = some text :=
  dif_pos text.isValidUTF8

/-- Settings that are saved and loaded again are the same. Without some of the pieces, the keys in
them have their defaults and all others are as they were. -/
theorem ofBytes_textOf (s : Settings) :
    ofBytes s.toToml.toUTF8 = .ok s ∧ s.pieces.flatMap Prod.snd = s.toToml.toList ∧
      ∀ kept : Option String → Bool, ofBytes (String.ofList (textOf s.pieces kept)).toUTF8 =
        .ok (s.keeping fun key => kept (some key)) := by
  have hkept (kept : Option String → Bool) :
      ofBytes (String.ofList (textOf s.pieces kept)).toUTF8 =
        .ok (s.keeping fun key => kept (some key)) := by
    have hread : ofToml? (String.ofList (textOf s.pieces kept)) =
        some (s.keeping fun key => kept (some key)) := by
      rw [ofToml?, String.toList_ofList, read_textOf, Option.bind_some,
        ofEntries?_entriesOf]
    simp only [ofBytes, fromUTF8?_toUTF8, hread]
  refine ⟨?_, pieces_text s, hkept⟩
  have hall : String.ofList (textOf s.pieces fun _ => true) = s.toToml := by
    rw [textOf, List.filter_eq_self.mpr (fun _ _ => rfl), pieces_text, String.ofList_toList]
  rw [← hall, hkept fun _ => true, keeping_all]

end TemplateMarkup.Settings
