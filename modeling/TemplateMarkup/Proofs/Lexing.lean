import TemplateMarkup.Markup.Attribute
import TemplateMarkup.Token.Lexer

/-! # The tokens of a text put together from parts

A token ends where its form refuses the next character. Where a text is cut in
front of such a character, its tokens are those of the two parts. What kind a
token has is decided by its first character, up to the second of a pair. -/

namespace TemplateMarkup

variable {form longer : Form} {c : Char} {a rest read : List Char} {t : Token} {kind : Kind}

/-! ## Forms -/

namespace Form

/-- The form in which a run of characters ends, each of them in the token of
those before it or the first of a new one. -/
def reach (form : Form) : List Char → Form
  | [] => form
  | c :: rest => ((form.extend? c).getD (ofChar c)).reach rest

theorem reach_same (h : ∀ c ∈ a, form.extend? c = some form) : form.reach a = form := by
  induction a with
  | nil => rfl
  | cons c a ih =>
    rw [reach, h c (List.mem_cons_self ..)]
    exact ih fun d hd => h d (List.mem_cons_of_mem c hd)

/-- A character that no token takes behind its first. -/
def Solid (c : Char) : Prop := ∀ form : Form, form.extend? c = none

theorem solid_of_whole (kind : Kind) (h : ofChar c = .whole kind) (hc : c ≠ '\n') : Solid c := by
  intro form
  have hhyphen : c ≠ '-' := by
    rintro rfl
    cases h
  have hatSign : c ≠ '@' := by
    rintro rfl
    cases h
  have hasterisk : c ≠ '*' := by
    rintro rfl
    cases h
  cases form <;> simp [extend?, h, hc, hhyphen, hatSign, hasterisk]

theorem extend?_blank (h : form.kind ≠ .whitespace) : form.extend? ' ' = none := by
  cases form with
  | blanks => exact absurd rfl h
  | carriageReturn | hyphen | asterisk | atSign | run | whole => rfl

theorem extend?_of_blanks (h : ofChar c ≠ blanks) : blanks.extend? c = none := by
  rw [extend?, if_neg h]

/-- A token ends in a form that none grows into only if a character begins in it. -/
theorem reach_ne {last : Form} (hgrown : ∀ (form : Form) (c : Char), form.extend? c ≠ some last)
    (hform : form ≠ last) (ha : ∀ b ∈ a, ofChar b ≠ last) : form.reach a ≠ last := by
  induction a generalizing form with
  | nil => exact hform
  | cons b a ih =>
    have hrest : ∀ d ∈ a, ofChar d ≠ last := fun d hd => ha d (List.mem_cons_of_mem b hd)
    rw [reach]
    cases he : form.extend? b with
    | none => exact ih (ha b (List.mem_cons_self ..)) hrest
    | some longer =>
      refine ih ?_ hrest
      rintro rfl
      exact hgrown form b he

theorem extend?_run (h : ofChar c = run) : run.extend? c = some run := by
  rw [extend?, if_pos h]

/-- The case of a letter means nothing to a form. -/
theorem form_toLower (form : Form) (c : Char) :
    ofChar c.toLower = ofChar c ∧ form.extend? c.toLower = form.extend? c := by
  refine ⟨Text.apply_toLower ofChar (by decide) c, Text.apply_toLower form.extend? ?_ c⟩
  cases form with
  | whole kind => exact fun _ => rfl
  | blanks | carriageReturn | hyphen | asterisk | atSign | run => decide

end Form

namespace Token

open Form

/-! ## Parts -/

theorem lexFrom_append (h : (form.reach a).extend? c = none) :
    lexFrom form read (a ++ c :: rest) = lexFrom form read a ++ lex (c :: rest) := by
  induction a generalizing form read with
  | nil =>
    rw [reach] at h
    simp [lexFrom, h, lex]
  | cons b a ih =>
    rw [reach] at h
    rw [List.cons_append, lexFrom, lexFrom]
    cases he : form.extend? b with
    | none =>
      rw [he] at h
      exact congrArg _ (ih h)
    | some longer =>
      rw [he] at h
      exact ih h

theorem lexFrom_last (form : Form) (read a : List Char) :
    ∃ front last, lexFrom form read a = front ++ [last] ∧ last.kind = (form.reach a).kind := by
  induction a generalizing form read with
  | nil => exact ⟨[], _, rfl, rfl⟩
  | cons b a ih =>
    rw [lexFrom, reach]
    cases he : form.extend? b with
    | none =>
      obtain ⟨front, last, hlex, hkind⟩ := ih (.ofChar b) [b]
      exact ⟨_ :: front, last, by rw [hlex]; rfl, hkind⟩
    | some longer => exact ih longer (b :: read)

theorem lex_append_solid (h : Solid c) : lex (a ++ c :: rest) = lex a ++ lex (c :: rest) := by
  cases a with
  | nil => rfl
  | cons b a => exact lexFrom_append (h _)

/-- A blank begins a token behind anything but a blank. -/
theorem lex_append_blank (h : ∀ t ∈ (lex a).getLast?, t.kind ≠ .whitespace) :
    lex (a ++ ' ' :: rest) = lex a ++ lex (' ' :: rest) := by
  cases a with
  | nil => rfl
  | cons b a =>
    obtain ⟨front, last, hlex, hkind⟩ := lexFrom_last (.ofChar b) [b] a
    refine lexFrom_append (extend?_blank ?_)
    rw [← hkind]
    exact h last (by rw [lex, hlex]; simp)

/-- A character that only one form takes begins a token behind a text without that form. -/
theorem lex_append_of_ne (last : Form)
    (hgrown : ∀ (form : Form) (d : Char), form.extend? d ≠ some last)
    (hc : ∀ form : Form, form ≠ last → form.extend? c = none) (ha : ∀ b ∈ a, ofChar b ≠ last) :
    lex (a ++ c :: rest) = lex a ++ lex (c :: rest) := by
  cases a with
  | nil => rfl
  | cons b a =>
    have hlast := reach_ne hgrown (ha b (List.mem_cons_self ..))
      fun d hd => ha d (List.mem_cons_of_mem b hd)
    exact lexFrom_append (hc _ hlast)

/-- A line feed joins a carriage return only. -/
theorem lex_append_lineFeed (ha : '\r' ∉ a) :
    lex (a ++ '\n' :: rest) = lex a ++ lex ('\n' :: rest) := by
  refine lex_append_of_ne .carriageReturn (fun form d => ?_) (fun form hform => ?_)
    fun b hb hform => ?_
  · unfold extend?
    split <;> (try split) <;> simp
  · cases form <;> first | rfl | exact absurd rfl hform
  · revert hform
    unfold ofChar
    split <;> simp_all

/-- An asterisk joins an `@` only. -/
theorem lex_append_asterisk (ha : '@' ∉ a) :
    lex (a ++ '*' :: rest) = lex a ++ lex ('*' :: rest) := by
  refine lex_append_of_ne .atSign (fun form d => ?_) (fun form hform => ?_)
    fun b hb hform => ?_
  · unfold extend?
    split <;> (try split) <;> simp
  · cases form <;> first | rfl | exact absurd rfl hform
  · revert hform
    unfold ofChar
    split <;> simp_all

theorem lex_whole (c : Char) (kind : Kind) (h : ofChar c = .whole kind) :
    lex (c :: rest) = ⟨kind, [c]⟩ :: lex rest := by
  rw [lex, h]
  cases rest <;> rfl

theorem lex_blank (h : ∀ b ∈ rest.head?, ofChar b ≠ blanks) :
    lex (' ' :: rest) = ⟨.whitespace, [' ']⟩ :: lex rest := by
  cases rest with
  | nil => rfl
  | cons b rest =>
    rw [lex, show Form.ofChar ' ' = blanks from rfl, lexFrom, extend?_of_blanks (h b rfl)]
    rfl

/-- Characters that keep a token in its form belong to it. -/
theorem lexFrom_same (read : List Char) (h : ∀ c ∈ a, form.extend? c = some form) :
    lexFrom form read a = [⟨form.kind, read.reverse ++ a⟩] := by
  induction a generalizing read with
  | nil => simp [lexFrom]
  | cons b a ih =>
    rw [lexFrom, h b (List.mem_cons_self ..)]
    have htail := ih (b :: read) fun c hc => h c (List.mem_cons_of_mem b hc)
    simpa using htail

theorem lexFrom_run (read : List Char) (h : ∀ c ∈ a, ofChar c = run) :
    lexFrom run read a = [⟨.text, read.reverse ++ a⟩] :=
  lexFrom_same read fun c hc => extend?_run (h c hc)

/-- Characters without a meaning of their own make one token. -/
theorem lex_run (hne : a ≠ []) (h : ∀ c ∈ a, ofChar c = run) : lex a = [⟨.text, a⟩] := by
  cases a with
  | nil => exact absurd rfl hne
  | cons b a =>
    rw [lex, h b (List.mem_cons_self ..)]
    exact lexFrom_run [b] fun c hc => h c (List.mem_cons_of_mem b hc)

/-! ## Kinds -/

theorem exists_form_of_mem_lexFrom {P : Form → List Char → Prop} (hchar : ∀ c, P (ofChar c) [c])
    (hextend : ∀ {form longer read c}, P form read → form.extend? c = some longer →
      P longer (read ++ [c]))
    (hread : P form read.reverse) (h : t ∈ lexFrom form read rest) :
    ∃ form, t.kind = form.kind ∧ P form t.text := by
  induction rest generalizing form read with
  | nil =>
    rw [lexFrom, List.mem_singleton] at h
    subst h
    exact ⟨form, rfl, hread⟩
  | cons c rest ih =>
    simp only [lexFrom] at h
    split at h
    · next longer he => exact ih (List.reverse_cons ▸ hextend hread he) h
    · rcases List.mem_cons.mp h with rfl | h
      · exact ⟨form, rfl, hread⟩
      · exact ih (hchar c) h

/-- What holds of a token's first character, and of the token as it grows, holds of the token. -/
theorem exists_form_of_mem_lex {P : Form → List Char → Prop} (hchar : ∀ c, P (ofChar c) [c])
    (hextend : ∀ {form longer read c}, P form read → form.extend? c = some longer →
      P longer (read ++ [c]))
    (h : t ∈ lex a) : ∃ form, t.kind = form.kind ∧ P form t.text := by
  cases a with
  | nil => cases h
  | cons c a => exact exists_form_of_mem_lexFrom hchar hextend (hchar c) h

/-- What the first character of a token says about its kind. -/
inductive Begins (first : Form) : Kind → Prop
  | same : Begins first first.kind
  | newline : first = .carriageReturn → Begins first .newline
  | doubleHyphen : first = .hyphen → Begins first .doubleHyphen
  | commentClose : first = .asterisk → Begins first .commentClose
  | commentOpen : first = .atSign → Begins first .commentOpen

/-- The form of a token that began with the character. -/
def Grown (first : Char) (form : Form) : Prop :=
  form = ofChar first ∨ ∃ kind, form = .whole kind ∧ Begins (ofChar first) kind

theorem Grown.begins {first : Char} (h : Grown first form) : Begins (ofChar first) form.kind := by
  rcases h with rfl | ⟨kind, rfl, h⟩
  · exact .same
  · exact h

theorem Grown.extend {first : Char} (h : Grown first form) (he : form.extend? c = some longer) :
    Grown first longer := by
  rcases h with rfl | ⟨kind, rfl, -⟩
  · revert he
    unfold Grown extend?
    generalize ofChar first = form
    cases form with
    | whole => exact nofun
    | blanks | run =>
      dsimp only
      split <;> intro he <;> cases he
      exact .inl rfl
    | carriageReturn =>
      dsimp only
      split <;> intro he <;> cases he
      exact .inr ⟨_, rfl, .newline rfl⟩
    | hyphen =>
      dsimp only
      split <;> intro he <;> cases he
      exact .inr ⟨_, rfl, .doubleHyphen rfl⟩
    | asterisk =>
      dsimp only
      split <;> intro he <;> cases he
      exact .inr ⟨_, rfl, .commentClose rfl⟩
    | atSign =>
      dsimp only
      split <;> intro he <;> cases he
      exact .inr ⟨_, rfl, .commentOpen rfl⟩
  · cases he

/-- Every token's kind fits a character of the text, the token's first. -/
theorem begins_of_mem_lex (h : t ∈ lex a) : ∃ b ∈ a, Begins (ofChar b) t.kind := by
  obtain ⟨form, hkind, first, hmem, hgrown⟩ := exists_form_of_mem_lex
    (P := fun form text => ∃ first ∈ text, Grown first form)
    (fun c => ⟨c, List.mem_singleton_self c, .inl rfl⟩)
    (fun ⟨first, hmem, hgrown⟩ he => ⟨first, List.mem_append_left _ hmem, hgrown.extend he⟩) h
  refine ⟨first, ?_, hkind ▸ hgrown.begins⟩
  rw [← textOf_lex a]
  exact List.mem_flatMap.mpr ⟨t, h, hmem⟩

theorem lexFrom_cons {first : Char} (hg : Grown first form)
    (hread : read.getLast? = some first) : ∃ t ts, lexFrom form read rest = t :: ts ∧
      t.text.head? = some first ∧ Begins (.ofChar first) t.kind := by
  induction rest generalizing form read with
  | nil => exact ⟨_, [], rfl, by rw [List.head?_reverse, hread], hg.begins⟩
  | cons c rest ih =>
    rw [lexFrom]
    cases he : form.extend? c with
    | none => exact ⟨_, _, rfl, by rw [List.head?_reverse, hread], hg.begins⟩
    | some longer => exact ih (hg.extend he) (by rw [List.getLast?_cons, hread]; rfl)

/-- The first token begins with the first character, and its kind fits that one. -/
theorem lex_cons (c : Char) (rest : List Char) : ∃ t ts, lex (c :: rest) = t :: ts ∧
    t.text.head? = some c ∧ Begins (.ofChar c) t.kind := lexFrom_cons (.inl rfl) rfl

theorem isTrivia_reach (hform : form.kind.isTrivia = true)
    (ha : ∀ c ∈ a, (ofChar c).kind.isTrivia = true) : (form.reach a).kind.isTrivia = true := by
  induction a generalizing form with
  | nil => exact hform
  | cons c a ih =>
    refine ih ?_ fun d hd => ha d (List.mem_cons_of_mem c hd)
    have hfirst := ha c (List.mem_cons_self ..)
    cases form with
    | blanks =>
      unfold extend?
      dsimp only
      split
      · rfl
      · exact hfirst
    | carriageReturn =>
      unfold extend?
      dsimp only
      split
      · rfl
      · exact hfirst
    | whole => exact hfirst
    | hyphen | asterisk | atSign | run => cases hform

/-- What is not spacing does not join spacing. -/
theorem extend?_of_trivia (hform : form.kind.isTrivia = true) (hc : (ofChar c).kind.isTrivia = false) :
    form.extend? c = none := by
  cases form with
  | blanks =>
    refine extend?_of_blanks fun hblank => ?_
    rw [hblank] at hc
    cases hc
  | carriageReturn =>
    refine if_neg fun hfeed => ?_
    rw [hfeed] at hc
    cases hc
  | whole => rfl
  | hyphen | asterisk | atSign | run => cases hform

/-- Spacing in front of anything else is spacing. -/
theorem lex_trivia_append (ha : ∀ c ∈ a, (ofChar c).kind.isTrivia = true)
    (hrest : ∀ c ∈ rest.head?, (ofChar c).kind.isTrivia = false) :
    lex (a ++ rest) = lex a ++ lex rest ∧ ∀ t ∈ lex a, t.kind.isTrivia = true := by
  refine ⟨?_, fun t ht => ?_⟩
  · cases a with
    | nil => rfl
    | cons b a =>
      cases rest with
      | nil => rw [List.append_nil, lex, List.append_nil]
      | cons c rest =>
        have hreach := isTrivia_reach (ha b (List.mem_cons_self ..))
          fun d hd => ha d (List.mem_cons_of_mem b hd)
        exact lexFrom_append (extend?_of_trivia hreach (hrest c rfl))
  · obtain ⟨c, hc, hbegins⟩ := begins_of_mem_lex ht
    have htrivia := ha c hc
    generalize ofChar c = form at htrivia hbegins
    generalize t.kind = kind at hbegins ⊢
    cases hbegins with
    | same => exact htrivia
    | newline => rfl
    | doubleHyphen h | commentClose h | commentOpen h =>
      subst h
      cases htrivia

theorem not_trivia_of_lex (ha : ∀ c ∈ a.head?, (ofChar c).kind.isTrivia = false) :
    ∀ t ∈ (lex a).head?, t.kind.isTrivia = false := by
  cases a with
  | nil => exact nofun
  | cons c a =>
    obtain ⟨t, ts, hlex, -, hbegins⟩ := lex_cons c a
    rw [hlex]
    rintro u ⟨⟩
    have hfirst := ha c rfl
    generalize ofChar c = form at hfirst hbegins
    generalize t.kind = kind at hbegins ⊢
    cases hbegins with
    | same => exact hfirst
    | newline h =>
      subst h
      cases hfirst
    | doubleHyphen | commentClose | commentOpen => rfl

theorem kind_ne_endOfInput_of_mem_lex (h : t ∈ lex a) : t.kind ≠ .endOfInput := by
  obtain ⟨b, -, hb⟩ := begins_of_mem_lex h
  intro hk
  rw [hk] at hb
  revert hb
  unfold ofChar
  split <;> intro hb <;> cases hb

/-- Only a line ending is the one character in some tokens and not all of them. -/
theorem eq_of_begins {d : Char} (hd : ofChar d = .whole kind) (hk : kind ≠ .newline)
    (h : Begins (ofChar c) kind) : c = d := by
  revert h hd
  unfold ofChar
  split <;> intro hd h <;> cases hd <;> revert h <;> split <;> intro h <;> cases h <;> first
    | rfl
    | contradiction

/-- Other characters that are tokens of their own stand for their kind. -/
theorem kindAt_lex_whole {d : Char} (hd : ofChar d = .whole kind) (hk : kind ≠ .newline) :
    kindAt (lex a) 0 = kind ↔ [d] <+: a := by
  constructor
  · intro h
    cases a with
    | nil =>
      subst h
      revert hd
      unfold ofChar
      split <;> intro hd <;> cases hd
    | cons c rest =>
      obtain ⟨t, ts, ht, -, hbegins⟩ := lex_cons c rest
      rw [ht] at h
      rw [show t.kind = kind from h] at hbegins
      exact ⟨rest, by rw [eq_of_begins hd hk hbegins]; rfl⟩
  · rintro ⟨rest, rfl⟩
    rw [List.singleton_append, lex_whole d kind hd]
    rfl

theorem lex_transition (h : rest.head? ≠ some '*') :
    lex ('@' :: rest) = ⟨.transition, ['@']⟩ :: lex rest := by
  cases rest with
  | nil => rfl
  | cons c rest =>
    have hc : c ≠ '*' := fun hc => h (congrArg some hc)
    have hnone : atSign.extend? c = none := by rw [extend?, if_neg hc]
    rw [lex, show Form.ofChar '@' = .atSign from rfl, lexFrom, hnone]
    rfl

theorem lex_commentOpen (rest : List Char) :
    lex ('@' :: '*' :: rest) = ⟨.commentOpen, ['@', '*']⟩ :: lex rest := by
  cases rest <;> rfl

/-- The characters that a token of a kind that ends attribute names begins with. -/
def starters : Kind → List Char
  | .whitespace => [' ', '\t']
  | .newline => ['\r', '\n']
  | .equals => ['=']
  | .closeAngle => ['>']
  | .openAngle => ['<']
  | .slash => ['/']
  | .doubleQuote => ['"']
  | .singleQuote => ['\'']
  | .transition | .commentOpen => ['@']
  | _ => []

theorem mem_starters (h : Begins (ofChar c) kind) (hk : kind.endsAttributeName = true) :
    c ∈ starters kind := by
  revert h hk
  unfold ofChar
  split <;> intro h hk <;> cases h <;> first
    | contradiction
    | exact absurd hk (by decide)
    | decide

/-- The characters that spacing begins with. -/
theorem isTrivia_ofChar : (ofChar c).kind.isTrivia = true ↔ c ∈ [' ', '\t', '\r', '\n'] := by
  constructor
  · intro h
    have hbegins : Begins (ofChar c) (ofChar c).kind := .same
    have hkind : (ofChar c).kind = .whitespace ∨ (ofChar c).kind = .newline := by
      generalize (ofChar c).kind = kind at h
      revert h
      unfold Kind.isTrivia
      split <;> simp
    rcases hkind with hkind | hkind <;> rw [hkind] at hbegins
    · exact List.mem_append_left ['\r', '\n'] (mem_starters hbegins rfl)
    · exact List.mem_append_right [' ', '\t'] (mem_starters hbegins rfl)
  · intro h
    simp only [List.mem_cons, List.not_mem_nil, or_false] at h
    rcases h with rfl | rfl | rfl | rfl <;> rfl

/-- A text without the characters of a kind has no token of it. -/
theorem kind_ne_of_mem_lex (h : t ∈ lex a) (hk : kind.endsAttributeName = true)
    (ha : ∀ c ∈ starters kind, c ∉ a) : t.kind ≠ kind := by
  rintro rfl
  obtain ⟨b, hb, hbegins⟩ := begins_of_mem_lex h
  exact ha b (mem_starters hbegins hk) hb

/-! ## Case -/

theorem kinds_lexFrom_toLower (form : Form) (read read' rest : List Char) :
    (lexFrom form read (rest.map Char.toLower)).map Token.kind =
      (lexFrom form read' rest).map Token.kind := by
  induction rest generalizing form read read' with
  | nil => rfl
  | cons c rest ih =>
    obtain ⟨hchar, hextend⟩ := form_toLower form c
    rw [List.map_cons, lexFrom, lexFrom, hchar, hextend]
    cases form.extend? c with
    | none => exact congrArg (form.kind :: ·) (ih (.ofChar c) [c.toLower] [c])
    | some longer => exact ih longer (c.toLower :: read) (c :: read')

/-- Texts that differ in the case of letters only have tokens of the same kinds. -/
theorem kinds_lex_of_sameIgnoringCase {b : List Char} (h : Text.sameIgnoringCase a b = true) :
    (lex a).map Token.kind = (lex b).map Token.kind := by
  have hfold (a : List Char) : (lex (Text.foldCase a)).map Token.kind = (lex a).map Token.kind := by
    cases a with
    | nil => rfl
    | cons c a =>
      have hchar := (form_toLower .run c).1
      rw [Text.foldCase, List.map_cons, lex, lex, hchar]
      exact kinds_lexFrom_toLower (.ofChar c) [c.toLower] [c] a
  rw [← hfold a, ← hfold b, Text.sameIgnoringCase_iff.mp h]

end Token

end TemplateMarkup
