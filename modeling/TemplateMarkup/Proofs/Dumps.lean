import TemplateMarkup.Proofs.Implicit
import TemplateMarkup.Proofs.Lossless
import TemplateMarkup.Toml.Number
import TemplateMarkup.Tree.Outline

/-! # Printed trees can be read back

The reader takes a printed tree line by line. It goes by the indentation, the kind and
the quoted text, and passes over the ranges, which say nothing that the texts of the
leaves do not say. From the last line to the first, a leaf is put in front of the trees
behind it, and a node takes those of them that stand deeper than it does. -/

namespace TemplateMarkup

/-! ## Quoted texts -/

namespace Text

/-- What the characters in front of the next one have begun. -/
inductive QuotedState where
  | plain
  /-- A backslash. -/
  | escape
  /-- A backslash and a `u`. -/
  | brace
  /-- The digits of a code point. -/
  | code (point : Nat)

/-- The character of a short escape. -/
def unescape? : Char → Option Char
  | '0' => some '\x00'
  | 't' => some '\t'
  | 'r' => some '\r'
  | 'n' => some '\n'
  | '\\' => some '\\'
  | '"' => some '"'
  | _ => none

/-- Reads a quoted text from behind its first quote. Its last quote ends the input. -/
def readQuoted : QuotedState → List Char → Option (List Char)
  | _, [] => none
  | .plain, c :: rest =>
    if c = '"' then if rest.isEmpty then some [] else none
    else if c = '\\' then readQuoted .escape rest
    else (readQuoted .plain rest).map (c :: ·)
  | .escape, c :: rest =>
    if c = 'u' then readQuoted .brace rest
    else (unescape? c).bind fun d => (readQuoted .plain rest).map (d :: ·)
  | .brace, c :: rest => if c = '\x7b' then readQuoted (.code 0) rest else none
  | .code point, c :: rest =>
    if c = '\x7d' then (readQuoted .plain rest).map (Char.ofNat point :: ·)
    else (Toml.hexDigit? c).bind fun d => readQuoted (.code (point * 16 + d)) rest

/-- The text that is quoted. -/
def unquote? : List Char → Option (List Char)
  | '"' :: rest => readQuoted .plain rest
  | _ => none

theorem hexDigit?_digitChar : ∀ {d : Nat}, d < 16 → Toml.hexDigit? d.digitChar = some d := by
  decide

theorem digitChar_ne : ∀ {d : Nat}, d < 16 → d.digitChar ≠ '\x7d' ∧ d.digitChar ≠ '\n' := by
  decide

theorem readQuoted_digit {d : Nat} (hd : d < 16) (point : Nat) (rest : List Char) :
    readQuoted (.code point) (d.digitChar :: rest) =
      readQuoted (.code (point * 16 + d)) rest := by
  simp [readQuoted, (digitChar_ne hd).1, hexDigit?_digitChar hd]

theorem readQuoted_toDigits (n : Nat) (rest : List Char) :
    readQuoted (.code 0) (Nat.toDigits 16 n ++ rest) = readQuoted (.code n) rest := by
  induction n using Nat.strongRecOn generalizing rest with
  | ind n ih =>
    rw [Nat.toDigits_eq_if (by decide)]
    split
    · next hlt => simp [readQuoted_digit hlt]
    · next hle =>
      have hlast : n % 16 < 16 := Nat.mod_lt n (by decide)
      rw [List.append_assoc, ih (n / 16) (by omega), List.singleton_append,
        readQuoted_digit hlast, Nat.div_add_mod']

theorem newline_notMem_toDigits (n : Nat) : '\n' ∉ Nat.toDigits 16 n := by
  induction n using Nat.strongRecOn with
  | ind n ih =>
    rw [Nat.toDigits_eq_if (by decide)]
    split
    · next hlt => simp [(digitChar_ne hlt).2.symm]
    · next hle =>
      have hlast := (digitChar_ne (Nat.mod_lt n (by decide : 16 > 0))).2.symm
      simp [ih (n / 16) (by omega), hlast]

/-- A character reads back however it is written. -/
theorem readQuoted_escape (c : Char) (rest : List Char) :
    readQuoted .plain (escape c ++ rest) = (readQuoted .plain rest).map (c :: ·) := by
  unfold escape
  split
  case h_7 hzero htab hreturn hline hslash hquote =>
    have hquote : c ≠ '"' := hquote
    have hslash : c ≠ '\\' := hslash
    split
    · simp [readQuoted, hslash, hquote]
    · simp [readQuoted, readQuoted_toDigits, Char.ofNat_toNat]
  all_goals simp [readQuoted, unescape?]

theorem readQuoted_escapes (cs : List Char) :
    readQuoted .plain (cs.flatMap escape ++ ['"']) = some cs := by
  induction cs with
  | nil => rfl
  | cons c cs ih => rw [List.flatMap_cons, List.append_assoc, readQuoted_escape, ih]; rfl

theorem unquote?_quote (cs : List Char) : unquote? (quote cs) = some cs :=
  readQuoted_escapes cs

theorem newline_notMem_escape (c : Char) : '\n' ∉ escape c := by
  unfold escape
  split
  case h_7 hzero htab hreturn hline hslash hquote =>
    have hline : c ≠ '\n' := hline
    split
    · simp [hline.symm]
    · simp [newline_notMem_toDigits]
  all_goals decide

theorem newline_notMem_quote (cs : List Char) : '\n' ∉ quote cs := by
  simp [quote, newline_notMem_escape]

end Text

/-! ## Lines -/

namespace Tree

/-- What a line says of a node or a leaf, its range apart. -/
structure Row where
  depth : Nat
  kind : Kind
  /-- The text of a leaf. -/
  text? : Option (List Char)

def Entry.row (e : Entry) : Row := ⟨e.depth, e.kind, e.text?⟩

/-- Reads a line. -/
def readLine (line : List Char) : Option Row := do
  let entry := line.dropWhile (· = ' ')
  let depth := (line.takeWhile (· = ' ')).length / 2
  let kind ← Kind.ofName? (String.ofList (entry.takeWhile (· ≠ '@')))
  match entry.dropWhile (· ≠ ' ') with
  | [] => pure ⟨depth, kind, none⟩
  | _ :: quoted => pure ⟨depth, kind, some (← Text.unquote? quoted)⟩

theorem name_plain (k : Kind) : ∀ c ∈ k.name.toList, c ≠ ' ' ∧ c ≠ '@' ∧ c ≠ '\n' := by
  have hall : k.name.toList.all (fun c => c != ' ' && c != '@' && c != '\n') = true := by
    cases k <;> rfl
  intro c hc
  simpa [and_assoc] using List.all_eq_true.mp hall c hc

theorem name_ne_nil (k : Kind) : k.name.toList ≠ [] := by
  cases k <;> decide

namespace Entry

variable {e : Entry}

/-- What the line says of the range, with the `@` in front of it. -/
def range (e : Entry) : List Char :=
  '@' :: Nat.toDigits 10 e.start ++ '.' :: '.' :: Nat.toDigits 10 e.stop

/-- What the line says of the text. -/
def quoted (e : Entry) : List Char :=
  match e.text? with
  | some text => ' ' :: Text.quote text
  | none => []

theorem line_eq (e : Entry) : e.line =
    List.replicate (2 * e.depth) ' ' ++ (e.kind.name.toList ++ (e.range ++ e.quoted)) := by
  cases htext : e.text? <;> simp only [line, range, quoted, htext, List.append_assoc]

theorem range_plain (e : Entry) : ∀ c ∈ e.range, c ≠ ' ' ∧ c ≠ '\n' := by
  have hdigit {c : Char} {n : Nat} (hc : c ∈ Nat.toDigits 10 n) : c ≠ ' ' ∧ c ≠ '\n' := by
    have hc := Nat.isDigit_of_mem_toDigits (by decide) (by decide) hc
    constructor <;> rintro rfl <;> simp at hc
  intro c hc
  simp only [range, List.cons_append, List.mem_cons, List.mem_append] at hc
  rcases hc with rfl | hc | rfl | rfl | hc
  · decide
  · exact hdigit hc
  · decide
  · decide
  · exact hdigit hc

theorem newline_notMem_line (e : Entry) : '\n' ∉ e.line := by
  have hname : '\n' ∉ e.kind.name.toList := fun h => (name_plain _ _ h).2.2 rfl
  have hrange : '\n' ∉ e.range := fun h => (range_plain e _ h).2 rfl
  have hquoted : '\n' ∉ e.quoted := by
    unfold quoted
    split
    · simp [Text.newline_notMem_quote]
    · exact List.not_mem_nil
  simp [line_eq, hname, hrange, hquoted]

/-- A line reads back as what it says. -/
theorem readLine_line (e : Entry) : readLine e.line = some e.row := by
  obtain ⟨c, cs, hname⟩ := List.exists_cons_of_ne_nil (name_ne_nil e.kind)
  have hfirst : c ≠ ' ' := (name_plain e.kind c (by rw [hname]; exact List.mem_cons_self)).1
  have hindent : e.line.takeWhile (· = ' ') = List.replicate (2 * e.depth) ' ' := by
    rw [line_eq, List.takeWhile_append_of_pos (by simp), hname]
    simp [hfirst]
  have hentry : e.line.dropWhile (· = ' ') = e.kind.name.toList ++ (e.range ++ e.quoted) := by
    rw [line_eq, List.dropWhile_append_of_pos (by simp), hname]
    simp [hfirst]
  have hkind : (e.kind.name.toList ++ (e.range ++ e.quoted)).takeWhile (· ≠ '@') =
      e.kind.name.toList := by
    rw [List.takeWhile_append_of_pos fun c hc => by simpa using (name_plain _ c hc).2.1]
    simp [range]
  have htext : (e.kind.name.toList ++ (e.range ++ e.quoted)).dropWhile (· ≠ ' ') = e.quoted := by
    rw [List.dropWhile_append_of_pos fun c hc => by simpa using (name_plain _ c hc).1,
      List.dropWhile_append_of_pos fun c hc => by simpa using (range_plain e c hc).1]
    unfold quoted
    split <;> rfl
  simp only [readLine, hindent, hentry, hkind, htext, String.ofList_toList, Kind.ofName?_name]
  unfold row quoted
  cases e.text? <;> simp [Text.unquote?_quote]

end Entry

/-! ## Trees -/

/-- Puts a line in front of trees and their depths: a leaf, or a node with the trees that stand
deeper. -/
def Row.grow (row : Row) (forest : List (Nat × Tree)) : List (Nat × Tree) :=
  match row.text? with
  | some text => (row.depth, .token row.kind text) :: forest
  | none =>
    (row.depth, .node row.kind ((forest.takeWhile (row.depth < ·.1)).map Prod.snd)) ::
      forest.dropWhile (row.depth < ·.1)

/-- Reads a printed tree. -/
def ofDump? (s : String) : Option Tree := do
  let rows ← (s.toList.splitOn '\n').mapM readLine
  match rows.foldr Row.grow [] with
  | [(_, t)] => pure t
  | _ => none

/-- The first of these trees does not stand deeper than this. -/
def HeadWithin (depth : Nat) (forest : List (Nat × Tree)) : Prop :=
  ∀ p ∈ forest.head?, p.1 ≤ depth

/-- A node takes its children and none of the trees behind it. -/
theorem grow_node {kind : Kind} {depth : Nat} {children : List Tree}
    {forest : List (Nat × Tree)} (h : HeadWithin depth forest) :
    Row.grow ⟨depth, kind, none⟩ (children.map (depth + 1, ·) ++ forest) =
      (depth, .node kind children) :: forest := by
  have hchildren : ∀ p ∈ children.map (depth + 1, ·), decide (depth < p.1) = true := by simp
  have htake : forest.takeWhile (depth < ·.1) = [] := by
    cases forest with
    | nil => rfl
    | cons p forest => exact List.takeWhile_cons_of_neg (by simpa using h p rfl)
  have hdrop : forest.dropWhile (depth < ·.1) = forest := by
    cases forest with
    | nil => rfl
    | cons p forest => exact List.dropWhile_cons_of_neg (by simpa using h p rfl)
  have hsnd : (children.map (depth + 1, ·)).map Prod.snd = children := by
    simp [List.map_map, Function.comp_def]
  dsimp only [Row.grow]
  rw [List.takeWhile_append_of_pos hchildren, List.dropWhile_append_of_pos hchildren, htake, hdrop,
    List.append_nil, hsnd]

mutual

/-- The lines of a tree put that tree in front of the trees behind it. -/
theorem foldr_outlineFrom (depth start : Nat) (forest : List (Nat × Tree))
    (h : HeadWithin depth forest) : (t : Tree) →
    ((outlineFrom depth start t).map Entry.row).foldr Row.grow forest = (depth, t) :: forest
  | token _ _ => rfl
  | node kind children => by
    have hdeeper : HeadWithin (depth + 1) forest := fun p hp => Nat.le_succ_of_le (h p hp)
    have hchildren := foldr_outlineOf (depth + 1) start forest hdeeper children
    rw [outlineFrom, List.map_cons, List.foldr_cons, hchildren]
    exact grow_node h

theorem foldr_outlineOf (depth start : Nat) (forest : List (Nat × Tree))
    (h : HeadWithin depth forest) : (ts : List Tree) →
    ((outlineOf depth start ts).map Entry.row).foldr Row.grow forest =
      ts.map (depth, ·) ++ forest
  | [] => rfl
  | t :: ts => by
    have hrest := foldr_outlineOf depth (start + t.width) forest h ts
    have hhead : HeadWithin depth (ts.map (depth, ·) ++ forest) := by
      cases ts with
      | nil => exact h
      | cons u us => simp [HeadWithin]
    rw [outlineOf, List.map_append, List.foldr_append, hrest,
      foldr_outlineFrom depth start _ hhead t]
    rfl

end

theorem outline_ne_nil (t : Tree) : t.outline ≠ [] := by
  cases t <;> simp [outline, outlineFrom]

/-- A printed tree reads back as itself. -/
theorem ofDump?_dump (t : Tree) : ofDump? t.dump = some t := by
  have hlines : t.dump.toList.splitOn '\n' = t.outline.map Entry.line := by
    rw [dump, String.toList_ofList]
    refine List.splitOn_intercalate '\n' ?_ (by simpa using outline_ne_nil t)
    intro line hline
    obtain ⟨e, -, rfl⟩ := List.mem_map.mp hline
    exact e.newline_notMem_line
  have hrows : (t.outline.map Entry.line).mapM readLine = some (t.outline.map Entry.row) := by
    have hread : readLine ∘ Entry.line = fun e => pure e.row := funext Entry.readLine_line
    rw [List.mapM_map, hread]
    exact List.mapM_pure
  have hforest := foldr_outlineFrom 0 0 [] (by simp [HeadWithin]) t
  rw [ofDump?, hlines, hrows]
  simp only [Option.bind_eq_bind, Option.bind_some, outline, hforest, Option.pure_def]

/-- Trees that print alike are the same tree. With lawful code the tree of every parse can be read
back from its printed form, and with it the source. -/
theorem dump_tells_tree :
    Function.Injective dump ∧
    ∀ {σ : Type} {code : EmbeddedCode σ} {strict : Prop} {ok : σ → Prop} (options : Options)
      (host : σ) (nesting? : Option Nesting) (source : String), code.Lawful strict ok →
      ok (Parser.finish options code host nesting? source).host →
      ∃ p, Parser.parse ⟨some options, code, host⟩ nesting? source = .ok p ∧
        ofDump? p.tree.dump = some p.tree ∧
        (ofDump? p.tree.dump).map text = some source.toList := by
  constructor
  · intro t u h
    exact Option.some.inj (by rw [← ofDump?_dump t, h, ofDump?_dump u])
  · intro σ code strict ok options host nesting? source hl hok
    obtain ⟨p, hp, ⟨htext, -⟩, -⟩ := Parser.finish_covers hl options host nesting? source hok
    refine ⟨p, ?_, ofDump?_dump p.tree, ?_⟩
    · rw [Parser.parse_eq, hp]
      rfl
    · rw [ofDump?_dump, Option.map_some, htext]

/-- A missing token beside a node without children and the same token inside it print differently. A
tag without its `>` in front of quotes, a backslash and a line ending reads back. -/
theorem dump_tells_tree_missing :
    (node .root [.node .markupBlock [], .token .closeAngle []]).dump ≠
      (node .root [.node .markupBlock [.token .closeAngle []]]).dump ∧
    ∃ p, Parser.parse ⟨some {}, (EmbeddedCode.implicit : EmbeddedCode Unit), ()⟩ none
        "<p a=\"\\\"<br\n</p>" = .ok p ∧
      ofDump? p.tree.dump = some p.tree ∧
      (ofDump? p.tree.dump).map text = some "<p a=\"\\\"<br\n</p>".toList :=
  ⟨dump_tells_tree.1.ne (by simp), dump_tells_tree.2 {} () none _
    (Cursor.lawful_implicit True fun _ => True) trivial⟩

end Tree

end TemplateMarkup
