import TemplateMarkup.Proofs.CodelessScans
import TemplateMarkup.Proofs.HandOff
import TemplateMarkup.Proofs.Printed
import TemplateMarkup.Proofs.RequestScans

/-! # The forms of attributes

An attribute is written without a value, or with one in double quotes, in single
quotes or in none. Each form ends where the next begins, so a row of attributes
is read as it is written. -/

namespace TemplateMarkup

/-! ## Forms -/

/-- How the value of an attribute is written. -/
inductive ValueForm where
  | doubleQuoted (value : List Char)
  | singleQuoted (value : List Char)
  | unquoted (value : List Char)

/-- An attribute as it is written. -/
structure AttributeForm where
  name : List Char
  value? : Option ValueForm

namespace ValueForm

def value : ValueForm → List Char
  | doubleQuoted value | singleQuoted value | unquoted value => value

def print : ValueForm → List Char
  | doubleQuoted value => '"' :: (value ++ ['"'])
  | singleQuoted value => '\'' :: (value ++ ['\''])
  | unquoted value => value

/-- The characters that a value without quotes may not have. -/
def stops : List Char := [' ', '\t', '\r', '\n', '<', '>', '/', '@']

/-- There is no code in the value, and nothing that ends it. -/
def Written : ValueForm → Prop
  | doubleQuoted value => '"' ∉ value ∧ '@' ∉ value
  | singleQuoted value => '\'' ∉ value ∧ '@' ∉ value
  | unquoted value => value ≠ [] ∧ (∀ c ∈ stops, c ∉ value) ∧ ∀ c ∈ ['"', '\''], value.head? ≠ some c

instance : DecidablePred Written
  | doubleQuoted value => inferInstanceAs (Decidable ('"' ∉ value ∧ '@' ∉ value))
  | singleQuoted value => inferInstanceAs (Decidable ('\'' ∉ value ∧ '@' ∉ value))
  | unquoted value =>
    have := List.decidableBAll (· ∉ value) stops
    have := List.decidableBAll (fun c => value.head? ≠ some c) ['"', '\'']
    inferInstanceAs (Decidable (value ≠ [] ∧ (∀ c ∈ stops, c ∉ value) ∧
      ∀ c ∈ ['"', '\''], value.head? ≠ some c))

def tokens : ValueForm → List Token
  | doubleQuoted value => Markup.quote :: (Token.lex value ++ [Markup.quote])
  | singleQuoted value => ⟨.singleQuote, ['\'']⟩ :: (Token.lex value ++ [⟨.singleQuote, ['\'']⟩])
  | unquoted value => Token.lex value

def pieces : ValueForm → List Piece
  | doubleQuoted value => [.leaf Markup.quote, .part .attributeValue ((Token.lex value).map .leaf),
      .leaf Markup.quote]
  | singleQuoted value => [.leaf ⟨.singleQuote, ['\'']⟩,
      .part .attributeValue ((Token.lex value).map .leaf), .leaf ⟨.singleQuote, ['\'']⟩]
  | unquoted value => [.part .attributeValue ((Token.lex value).map .leaf)]

end ValueForm

namespace AttributeForm

variable (a : AttributeForm)

/-- What the tag sees of it. -/
def toAttribute : Attribute := ⟨a.name, a.value?.map ValueForm.value⟩

/-- The text, with the blank in front of it. -/
def print : List Char :=
  ' ' :: (a.name ++ match a.value? with
    | none => []
    | some v => '=' :: v.print)

structure Written : Prop where
  name_ne_nil : a.name ≠ []
  name : ∀ c ∈ Markup.keyStops, c ∉ a.name
  value : ∀ v ∈ a.value?, v.Written

instance : DecidablePred Written := fun a =>
  have := List.decidableBAll (· ∉ a.name) Markup.keyStops
  decidable_of_iff (a.name ≠ [] ∧ (∀ c ∈ Markup.keyStops, c ∉ a.name) ∧ ∀ v ∈ a.value?, v.Written)
    ⟨fun h => ⟨h.1, h.2.1, h.2.2⟩, fun h => ⟨h.name_ne_nil, h.name, h.value⟩⟩

/-- The tokens behind the blank. -/
def body : List Token :=
  Token.lex a.name ++ match a.value? with
    | none => []
    | some v => ⟨.equals, ['=']⟩ :: v.tokens

def tokens : List Token := ⟨.whitespace, [' ']⟩ :: a.body

def bodyPieces : List Piece :=
  (Token.lex a.name).map .leaf ++ match a.value? with
    | none => []
    | some v => .leaf ⟨.equals, ['=']⟩ :: v.pieces

def pieces : List Piece := [.leaf ⟨.whitespace, [' ']⟩, .part .attributeBlock a.bodyPieces]

/-! ## Tokens -/

variable {a} {as : List AttributeForm} {rest more : List Char} {c : Char}

/-- A text without blanks ends in front of a blank and of a `>`. -/
theorem lex_append_next (hblank : ∀ c ∈ Token.starters .whitespace, c ∉ rest)
    (hmore : more.head? = some ' ' ∨ more.head? = some '>') :
    Token.lex (rest ++ more) = Token.lex rest ++ Token.lex more := by
  obtain hmore | hmore := hmore <;> obtain ⟨more, rfl⟩ := List.head?_eq_some_iff.mp hmore
  · exact Token.lex_append_blank fun t ht =>
      Token.kind_ne_of_mem_lex (List.mem_of_getLast? ht) rfl hblank
  · exact Token.lex_append_solid (Form.solid_of_whole .closeAngle rfl (by decide))

theorem lex_value {v : ValueForm} (h : v.Written)
    (hmore : more.head? = some ' ' ∨ more.head? = some '>') :
    Token.lex (v.print ++ more) = v.tokens ++ Token.lex more := by
  have hdouble : Form.Solid '"' := Form.solid_of_whole .doubleQuote rfl (by decide)
  have hsingle : Form.Solid '\'' := Form.solid_of_whole .singleQuote rfl (by decide)
  cases v with
  | doubleQuoted value =>
    simp only [ValueForm.print, List.cons_append, List.append_assoc, List.nil_append]
    rw [Token.lex_whole '"' .doubleQuote rfl, Token.lex_append_solid hdouble,
      Token.lex_whole '"' .doubleQuote rfl]
    simp [ValueForm.tokens, Markup.quote]
  | singleQuoted value =>
    simp only [ValueForm.print, List.cons_append, List.append_assoc, List.nil_append]
    rw [Token.lex_whole '\'' .singleQuote rfl, Token.lex_append_solid hsingle,
      Token.lex_whole '\'' .singleQuote rfl]
    simp [ValueForm.tokens]
  | unquoted value =>
    have hsub : Token.starters .whitespace ⊆ ValueForm.stops := by decide
    exact lex_append_next (fun c hc => h.2.1 c (hsub hc)) hmore

theorem Written.no_blank (h : a.Written) : ∀ c ∈ Token.starters .whitespace, c ∉ a.name := by
  have hsub : Token.starters .whitespace ⊆ Markup.keyStops := by decide
  exact fun c hc => h.name c (hsub hc)

theorem lex_print (h : a.Written) (hmore : more.head? = some ' ' ∨ more.head? = some '>') :
    Token.lex (a.print ++ more) = a.tokens ++ Token.lex more := by
  obtain ⟨name, value?⟩ := a
  have hequals : Form.Solid '=' := Form.solid_of_whole .equals rfl (by decide)
  cases value? with
  | none =>
    have hname := lex_append_next h.no_blank hmore
    simp only [print, List.cons_append, List.append_nil]
    rw [Token.lex_blank (Markup.head_key h.name_ne_nil h.name more), hname, tokens, body]
    simp
  | some v =>
    simp only [print, List.cons_append, List.append_assoc]
    rw [Token.lex_blank (Markup.head_key h.name_ne_nil h.name _), Token.lex_append_solid hequals,
      Token.lex_whole '=' .equals rfl, lex_value (h.value v rfl) hmore, tokens, body]
    simp

theorem head_prints (as : List AttributeForm) (rest : List Char) :
    (as.flatMap print ++ '>' :: rest).head? = some ' ' ∨
      (as.flatMap print ++ '>' :: rest).head? = some '>' := by
  cases as with
  | nil => exact .inr rfl
  | cons a as => exact .inl rfl

/-- A row of attributes in front of a `>`. -/
theorem lex_prints (h : ∀ a ∈ as, a.Written) (rest : List Char) :
    Token.lex (as.flatMap print ++ '>' :: rest) = as.flatMap tokens ++ Token.lex ('>' :: rest) := by
  induction as with
  | nil => rfl
  | cons a as ih =>
    rw [List.flatMap_cons, List.append_assoc, lex_print (h a (List.mem_cons_self ..)) (head_prints as rest),
      ih fun b hb => h b (List.mem_cons_of_mem a hb), List.flatMap_cons, List.append_assoc]

theorem Written.lex_name_ne_nil (h : a.Written) : Token.lex a.name ≠ [] := by
  intro hnone
  refine h.name_ne_nil ?_
  rw [← Token.textOf_lex a.name, hnone]
  rfl

end AttributeForm

/-! ## Reading a value -/

namespace Cursor

open AttributeForm

variable {σ : Type} {code : EmbeddedCode σ} {c d e : Cursor σ} {used more rest : List Token}
  {ps qs : List Piece} {kind : Kind} {t opener closer : Token}

/-- Known tokens are taken, and the cursor has not gone back behind them. -/
structure Covers (used : List Token) (ps : List Piece) (c d : Cursor σ) : Prop
    extends Takes used ps c d where
  overrun : d.overrun = c.overrun

namespace Covers

theorem refl (h : c.held = []) : Covers [] [] c c := ⟨.refl h, rfl⟩

theorem trans (h : Covers used ps c d) (h' : Covers more qs d e) :
    Covers (used ++ more) (ps ++ qs) c e :=
  ⟨h.toTakes.trans h'.toTakes, h'.overrun.trans h.overrun⟩

theorem bumpN (hh : c.held = []) (ha : c.ahead = used ++ rest) :
    Covers used (used.map .leaf) c (c.bumpN used.length) :=
  ⟨.bumpN hh ha, overrun_bumpN c _⟩

theorem bump (hh : c.held = []) (ha : c.ahead = t :: rest) : Covers [t] [.leaf t] c c.bump :=
  bumpN hh (show c.ahead = [t] ++ rest from ha)

theorem bumpWhile {test : Token → Bool} (hh : c.held = []) (ha : c.ahead = used ++ rest)
    (hall : ∀ t ∈ used, test t = true) (hstop : ∀ t ∈ rest.head?, test t = false) :
    Covers used (used.map .leaf) c (c.bumpWhile test) :=
  ⟨.bumpWhile hh ha hall hstop, overrun_bumpN c _⟩

theorem node (h : Covers used ps c.start.2 d) (kind : Kind) (hk : kind ≠ .literal) :
    Covers used [.part kind ps] c (d.complete c.start.1 kind) :=
  ⟨h.toTakes.node kind hk, (overrun_complete d _ kind).trans (h.overrun.trans (overrun_flush c _))⟩

/-- What is read without code is taken. -/
theorem of_reads (h : Reads [] used c d) (hh : c.held = []) (hd : d.held = [])
    (hflag : c.context.ephemeralLineEnding = false) : Covers used (used.map .leaf) c d := by
  have hevents : d.events = c.events := by
    have htoList := h.events
    simpa [Tree.eventsOf, ← Array.toList_inj] using htoList
  have hpending : d.pending = used.reverse ++ c.pending := by
    have hunflushed := congrArg List.reverse h.unflushed
    simpa [unflushed, hh, hd] using hunflushed
  have htokens : d.tokens = c.tokens := by
    simp [tokens, h.flushed, hpending, hh, hd, h.ahead]
  refine ⟨⟨.accept used hevents h.flushed hpending htokens (h.context hflag) h.diagnostics ?_, h.ahead,
    hd, htokens⟩, h.overrun⟩
  rw [hh, hd]
  exact h.ahead

/-- The text that was taken stands between the places. -/
theorem textBetween (h : Covers used ps c d) (hh : c.held = []) (ho : c.overrun = 0) :
    d.textBetween c.position d.position = Token.textOf used := by
  have htokens : c.flushed.reverse ++ c.pending.reverse ++ (used ++ d.ahead) =
      d.flushed.reverse ++ d.pending.reverse ++ d.ahead := by
    have hsame := h.tokens
    simp only [tokens, hh, h.held, h.ahead, List.reverse_nil, List.append_nil] at hsame
    exact hsame.symm
  have hfront : d.flushed.reverse ++ d.pending.reverse =
      c.flushed.reverse ++ c.pending.reverse ++ used := by
    rw [← List.append_assoc] at htokens
    exact (List.append_cancel_right htokens).symm
  have hc : c.position = (c.flushed.reverse ++ c.pending.reverse).length := by
    simp [position, accepted, hh, ho]
  have hd : d.position = (c.flushed.reverse ++ c.pending.reverse ++ used).length := by
    rw [← hfront]
    simp [position, accepted, h.held, h.overrun, ho]
  have hall : d.tokens = c.flushed.reverse ++ c.pending.reverse ++ used ++ d.ahead := by
    rw [← hfront]
    simp [tokens, h.held]
  rw [Cursor.textBetween, hall, hd, List.take_left, hc, List.drop_left]

end Covers

/-- A value in quotes. -/
theorem attributeValue_quoted (code : EmbeddedCode σ) (hkind : kind = .doubleQuote ∨ kind = .singleQuote)
    (hopener : opener.kind = kind) (hcloser : closer.kind = kind) (hused : ∀ t ∈ used, Passes kind t)
    (hne : ∀ t ∈ used, t.text ≠ []) (hh : c.held = [])
    (hflag : c.context.ephemeralLineEnding = false) (ha : c.ahead = opener :: used ++ closer :: rest) :
    Covers (opener :: used ++ [closer])
        [.leaf opener, .part .attributeValue (used.map .leaf), .leaf closer] c (c.attributeValue code).2 ∧
      (c.overrun = 0 → (c.attributeValue code).1 = Token.textOf used) := by
  have hcurrent : c.current = kind := (current_cons ha).trans hopener
  have hopen : Covers [opener] [.leaf opener] c c.bump := .bump hh ha
  have hstart : c.bump.start.2.ahead = used ++ closer :: rest :=
    (ahead_start _).trans (hopen.ahead_eq ha)
  have hheld : c.bump.start.2.held = [] := (held_start _).trans hopen.held
  have hcontext : c.bump.start.2.context = c.context := (context_flush _ _).trans (context_bump c)
  have hvalue : Covers used (used.map .leaf) c.bump.start.2 (c.bump.start.2.skipTo code kind) := by
    obtain ⟨hreads, hdone⟩ := scanFrom_passes code (·.at? kind) .inside
      (by rw [hcontext, hflag]) hstart (fun t ht => ⟨(hused t ht).2.1, (hused t ht).2.2.1, fun d hd => by
        simp [at?, hd, (hused t ht).1]⟩) (fun d hd => by simp [at?, current_cons hd, hcloser])
      (length_lt_budget code hstart hne)
    exact .of_reads hreads hheld hdone (by rw [hcontext, hflag])
  have hnode := hopen.trans (hvalue.node .attributeValue (by decide))
  have hnext := hnode.ahead_eq ha
  have heat := (Takes.eat_true hnode.held hnext hcloser).1
  have hall := hnode.trans (.bump hnode.held hnext)
  rw [attributeValue]
  dsimp only
  rw [hcurrent, if_pos hkind, if_pos hkind, if_pos hkind, heat]
  refine ⟨hall, fun ho => ?_⟩
  exact hvalue.textBetween hheld ((overrun_flush _ _).trans (hopen.overrun.trans ho))

/-- A token in a value without quotes. -/
structure InBareValue (t : Token) : Prop where
  goes_on : t.kind ≠ .whitespace ∧ t.kind ≠ .newline ∧ t.kind ≠ .closeAngle ∧ t.kind ≠ .openAngle ∧
    t.kind ≠ .slash
  no_code : t.kind ≠ .transition ∧ t.kind ≠ .commentOpen
  text_ne_nil : t.text ≠ []

theorem InBareValue.not_end (ht : InBareValue t) (hc : c.current = t.kind) :
    atBareValueEnd c = false := by
  have hgo := ht.goes_on
  rw [← hc] at hgo
  unfold atBareValueEnd
  split <;> simp_all

/-- A value without quotes. -/
theorem attributeValue_bare (code : EmbeddedCode σ) (hused : ∀ t ∈ used, InBareValue t)
    (hfirst : ∀ t ∈ used.head?, t.kind ≠ .doubleQuote ∧ t.kind ≠ .singleQuote) (hne : used ≠ [])
    (hrest : Token.kindAt rest 0 = .whitespace ∨ Token.kindAt rest 0 = .closeAngle) (hh : c.held = [])
    (hflag : c.context.ephemeralLineEnding = false) (ha : c.ahead = used ++ rest) :
    Covers used [.part .attributeValue (used.map .leaf)] c (c.attributeValue code).2 ∧
      (c.overrun = 0 → (c.attributeValue code).1 = Token.textOf used) := by
  have hquote : ¬ (c.current = .doubleQuote ∨ c.current = .singleQuote) := by
    obtain ⟨t, us, hcons⟩ := List.exists_cons_of_ne_nil hne
    have hline : c.ahead = t :: (us ++ rest) := by
      rw [ha, hcons]
      rfl
    rw [current_cons hline]
    exact not_or.mpr (hfirst t (by rw [hcons]; rfl))
  have hstart : c.start.2.ahead = used ++ rest := (ahead_start _).trans ha
  have hheld : c.start.2.held = [] := (held_start _).trans hh
  have hunasked : c.start.2.context.ephemeralLineEnding = false := by
    rw [show c.start.2.context = c.context from context_flush _ _, hflag]
  have hvalue : Covers used (used.map .leaf) c.start.2 (c.start.2.skipUntil code atBareValueEnd) := by
    obtain ⟨hreads, hdone⟩ := scanFrom_passes code atBareValueEnd .inside hunasked hstart
      (fun t ht => ⟨(hused t ht).no_code.1, (hused t ht).no_code.2, fun _ => (hused t ht).not_end⟩)
      (fun d hd => by
        have hcurrent : d.current = Token.kindAt rest 0 := nth_eq hd
        rcases hrest with hk | hk <;> simp [atBareValueEnd, hcurrent, hk])
      (length_lt_budget code hstart fun t ht => (hused t ht).text_ne_nil)
    exact .of_reads hreads hheld hdone hunasked
  rw [attributeValue]
  dsimp only
  rw [if_neg hquote, if_neg hquote, if_neg hquote]
  exact ⟨hvalue.node .attributeValue (by decide), fun ho =>
    hvalue.textBetween hheld ((overrun_flush _ _).trans ho)⟩

theorem inBareValue_lex {value : List Char} (hstops : ∀ c ∈ ValueForm.stops, c ∉ value) :
    ∀ t ∈ Token.lex value, InBareValue t := by
  intro t ht
  have hother {kind : Kind} (hk : kind.endsAttributeName = true)
      (hsub : Token.starters kind ⊆ ValueForm.stops) : t.kind ≠ kind :=
    Token.kind_ne_of_mem_lex ht hk fun c hc => hstops c (hsub hc)
  exact ⟨⟨hother rfl (by decide), hother rfl (by decide), hother rfl (by decide),
    hother rfl (by decide), hother rfl (by decide)⟩,
    ⟨hother rfl (by decide), hother rfl (by decide)⟩, Token.text_ne_nil_of_mem_lex ht⟩

/-- Text that does not begin with a quote has no quote as its first token. -/
theorem head_lex_not_quote {value : List Char} (hquotes : ∀ c ∈ ['"', '\''], value.head? ≠ some c) :
    ∀ t ∈ (Token.lex value).head?, t.kind ≠ .doubleQuote ∧ t.kind ≠ .singleQuote := by
  have hother {kind : Kind} (hk : kind.endsAttributeName = true) (hend : kind ≠ .endOfInput)
      (hsub : Token.starters kind ⊆ ['"', '\'']) : Token.kindAt (Token.lex value) 0 ≠ kind :=
    Token.kindAt_lex_ne hk hend fun c hc hmem => hquotes c (hsub hmem) hc
  have hdouble : Token.kindAt (Token.lex value) 0 ≠ .doubleQuote :=
    hother rfl (by decide) (by decide)
  have hsingle : Token.kindAt (Token.lex value) 0 ≠ .singleQuote :=
    hother rfl (by decide) (by decide)
  intro t ht
  obtain ⟨ts, hlex⟩ := List.head?_eq_some_iff.mp ht
  rw [hlex] at hdouble hsingle
  exact ⟨hdouble, hsingle⟩

/-- What is read as the value is the value that is written. -/
theorem attributeValue_written (code : EmbeddedCode σ) {v : ValueForm} (h : v.Written)
    (hrest : Token.kindAt rest 0 = .whitespace ∨ Token.kindAt rest 0 = .closeAngle) (hh : c.held = [])
    (hflag : c.context.ephemeralLineEnding = false) (ha : c.ahead = v.tokens ++ rest) :
    Covers v.tokens v.pieces c (c.attributeValue code).2 ∧
      (c.overrun = 0 → (c.attributeValue code).1 = v.value) := by
  have hne {value : List Char} : ∀ t ∈ Token.lex value, t.text ≠ [] :=
    fun t ht => Token.text_ne_nil_of_mem_lex ht
  cases v with
  | doubleQuoted value =>
    obtain ⟨hquote, hat⟩ := h
    have hpass : ∀ t ∈ Token.lex value, Passes .doubleQuote t :=
      Markup.passes_lex rfl (by simpa [Token.starters] using hquote) hat
    have hread := attributeValue_quoted code (.inl rfl) rfl rfl hpass hne hh hflag
      (show c.ahead = Markup.quote :: Token.lex value ++ Markup.quote :: rest by
        simp [ha, ValueForm.tokens])
    rwa [Token.textOf_lex] at hread
  | singleQuoted value =>
    obtain ⟨hquote, hat⟩ := h
    have hpass : ∀ t ∈ Token.lex value, Passes .singleQuote t :=
      Markup.passes_lex rfl (by simpa [Token.starters] using hquote) hat
    have hread := attributeValue_quoted code (.inr rfl) rfl rfl hpass hne hh hflag
      (show c.ahead = ⟨.singleQuote, ['\'']⟩ :: Token.lex value ++ ⟨.singleQuote, ['\'']⟩ :: rest by
        simp [ha, ValueForm.tokens])
    rwa [Token.textOf_lex] at hread
  | unquoted value =>
    obtain ⟨hsome, hstops, hquotes⟩ := h
    have hlex : Token.lex value ≠ [] := fun hnone => hsome (by rw [← Token.textOf_lex value, hnone]; rfl)
    have hread := attributeValue_bare code (inBareValue_lex hstops) (head_lex_not_quote hquotes) hlex
      hrest hh hflag ha
    rwa [Token.textOf_lex] at hread

/-- No value begins with a blank. -/
theorem head_value {v : ValueForm} (h : v.Written) :
    ∀ t ∈ (v.tokens ++ rest).head?, t.kind ≠ .whitespace := by
  cases v with
  | doubleQuoted | singleQuoted =>
    rintro t ⟨⟩
    decide
  | unquoted value =>
    obtain ⟨c, value, rfl⟩ := List.exists_cons_of_ne_nil h.1
    obtain ⟨t, ts, hlex, -⟩ := Token.lex_cons c value
    intro u hu
    rw [ValueForm.tokens, hlex] at hu
    obtain rfl : t = u := by simpa using hu
    refine Token.kind_ne_of_mem_lex (hlex ▸ List.mem_cons_self ..) rfl fun b hb => h.2.1 b ?_
    have hsub : Token.starters .whitespace ⊆ ValueForm.stops := by decide
    exact hsub hb

/-! ## Reading attributes -/

/-- What comes behind an attribute: a `>`, or a blank and another name. -/
def EndsAttribute (rest : List Token) : Prop :=
  Token.kindAt rest 0 = .closeAngle ∨
    Token.kindAt rest 0 = .whitespace ∧ (Token.kindAt rest 1).endsAttributeName = false

theorem EndsAttribute.not_equals (h : EndsAttribute rest) (ha : c.ahead = rest) :
    c.nth (c.runLength (·.kind == .whitespace) 0) ≠ .equals := by
  cases rest with
  | nil => rcases h with h | ⟨h, -⟩ <;> cases h
  | cons t rest =>
    rcases h with h | ⟨h, hnext⟩
    · have hk : t.kind = .closeAngle := h
      simp [runLength, ha, hk, nth, Token.kindAt]
    · have hk : t.kind = .whitespace := h
      cases rest with
      | nil => cases hnext
      | cons u rest =>
        have hu : u.kind.endsAttributeName = false := hnext
        have hother : u.kind ≠ .whitespace ∧ u.kind ≠ .equals := by
          constructor <;> intro hk <;> rw [hk] at hu <;> cases hu
        simp [runLength, ha, hk, nth, Token.kindAt, hother.1, hother.2]

/-- The tokens of a name are read up to what ends it. -/
theorem key_written {name : List Char} (hname : ∀ t ∈ Token.lex name, t.kind.endsAttributeName = false)
    (hh : c.held = []) (ha : c.ahead = Token.lex name ++ rest)
    (hrest : ∀ t ∈ rest.head?, t.kind.endsAttributeName = true) :
    Covers (Token.lex name) ((Token.lex name).map .leaf) c
      (c.bumpWhile (!·.kind.endsAttributeName)) :=
  .bumpWhile hh ha (fun t ht => by rw [hname t ht]; rfl) fun t ht => by rw [hrest t ht]; rfl

/-- An attribute that is a name alone. -/
theorem readAttribute_name (code : EmbeddedCode σ) {name : List Char}
    (h : AttributeForm.Written ⟨name, none⟩) (hrest : EndsAttribute rest) (hh : c.held = [])
    (ha : c.ahead = Token.lex name ++ rest) :
    Covers (Token.lex name) [.part .attributeBlock ((Token.lex name).map .leaf)] c
        (c.readAttribute code).2 ∧
      (c.overrun = 0 → (c.readAttribute code).1 = ⟨name, none⟩) := by
  have hheld : c.start.2.held = [] := (held_start c).trans hh
  have hstart : c.start.2.ahead = Token.lex name ++ rest := by rw [ahead_start, ha]
  have hkey := key_written (Markup.lex_key h.name) hheld hstart fun t ht => by
    obtain ⟨ts, rfl⟩ := List.head?_eq_some_iff.mp ht
    rcases hrest with hk | ⟨hk, -⟩ <;> rw [show t.kind = _ from hk] <;> rfl
  have hnone := hrest.not_equals (hkey.ahead_eq hstart)
  rw [readAttribute]
  dsimp only
  rw [if_neg hnone]
  refine ⟨hkey.node .attributeBlock (by decide), fun ho => ?_⟩
  have htext := hkey.textBetween hheld ((overrun_flush c _).trans ho)
  rw [Token.textOf_lex] at htext
  rw [htext]

/-- An attribute with a value. -/
theorem readAttribute_value (code : EmbeddedCode σ) {name : List Char} {v : ValueForm}
    (h : AttributeForm.Written ⟨name, some v⟩)
    (hrest : Token.kindAt rest 0 = .whitespace ∨ Token.kindAt rest 0 = .closeAngle) (hh : c.held = [])
    (hflag : c.context.ephemeralLineEnding = false)
    (ha : c.ahead = Token.lex name ++ ⟨.equals, ['=']⟩ :: (v.tokens ++ rest)) :
    Covers (Token.lex name ++ ⟨.equals, ['=']⟩ :: v.tokens)
        [.part .attributeBlock ((Token.lex name).map .leaf ++ .leaf ⟨.equals, ['=']⟩ :: v.pieces)] c
        (c.readAttribute code).2 ∧
      (c.overrun = 0 → (c.readAttribute code).1 = ⟨name, some v.value⟩) := by
  have hheld : c.start.2.held = [] := (held_start c).trans hh
  have hcontext : c.start.2.context = c.context := context_flush c _
  have hstart : c.start.2.ahead = Token.lex name ++ ⟨.equals, ['=']⟩ :: (v.tokens ++ rest) := by
    rw [ahead_start, ha]
  have hkey := key_written (Markup.lex_key h.name) hheld hstart fun t ht => by
    cases ht
    rfl
  have hequals := hkey.ahead_eq hstart
  generalize hd : c.start.2.bumpWhile (!·.kind.endsAttributeName) = d at hkey hequals
  have hblanks : d.runLength (·.kind == .whitespace) 0 = 0 := by simp [runLength, hequals]
  have hsign : d.nth 0 = .equals := current_cons hequals
  have hbump : Covers [⟨.equals, ['=']⟩] [.leaf ⟨.equals, ['=']⟩] d d.bump := .bump hkey.held hequals
  have hnext := hbump.ahead_eq hequals
  have hnone : d.bump.bumpWhile (·.kind == .whitespace) = d.bump := by
    refine bumpWhile_of_head fun t ht => ?_
    rw [hnext] at ht
    simpa using head_value (h.value v rfl) t ht
  have hboth := hkey.trans hbump
  obtain ⟨hvalue, hread⟩ := attributeValue_written code (h.value v rfl) hrest hboth.held
    (by rw [hboth.context_eq, hcontext, hflag]) hnext
  have hall := (hboth.trans hvalue).node .attributeBlock (by decide)
  have hresult : c.readAttribute code =
      (⟨d.textBetween c.start.2.position d.position, some (d.bump.attributeValue code).1⟩,
        (d.bump.attributeValue code).2.complete c.start.1 .attributeBlock) := by
    rw [readAttribute]
    dsimp only
    rw [hd, hblanks, if_pos hsign]
    dsimp only
    rw [show (d.bumpN (0 + 1)).bumpWhile (·.kind == .whitespace) = d.bump from hnone]
  rw [hresult]
  refine ⟨by simpa using hall, fun ho => ?_⟩
  have hstill : c.start.2.overrun = 0 := (overrun_flush c _).trans ho
  have htext := hkey.textBetween hheld hstill
  rw [Token.textOf_lex] at htext
  rw [htext, hread (hboth.overrun.trans hstill)]

/-- What is read as the attribute is the attribute that is written. -/
theorem readAttribute_written (code : EmbeddedCode σ) {a : AttributeForm} (h : a.Written)
    (hrest : EndsAttribute rest) (hh : c.held = []) (hflag : c.context.ephemeralLineEnding = false)
    (ha : c.ahead = a.body ++ rest) :
    Covers a.body [.part .attributeBlock a.bodyPieces] c (c.readAttribute code).2 ∧
      (c.overrun = 0 → (c.readAttribute code).1 = a.toAttribute) := by
  obtain ⟨name, value?⟩ := a
  cases value? with
  | none =>
    have hname := readAttribute_name code h hrest hh (by rw [ha, body, List.append_nil])
    simpa [body, bodyPieces, toAttribute] using hname
  | some v =>
    exact readAttribute_value code h (hrest.symm.imp And.left id) hh hflag
      (by rw [ha, body]; simp)

/-- Behind an attribute comes the next, or the end of the tag. -/
theorem endsAttribute_tokens {as : List AttributeForm} (has : ∀ a ∈ as, a.Written)
    (ht : t.kind = .closeAngle) :
    EndsAttribute (as.flatMap AttributeForm.tokens ++ t :: rest) := by
  cases as with
  | nil => exact .inl ht
  | cons a as =>
    have ha := has a (List.mem_cons_self ..)
    obtain ⟨k, key, hkey⟩ := List.exists_cons_of_ne_nil ha.lex_name_ne_nil
    refine .inr ⟨rfl, ?_⟩
    have hnext : Token.kindAt ((a :: as).flatMap AttributeForm.tokens ++ t :: rest) 1 = k.kind := by
      simp [AttributeForm.tokens, body, hkey, Token.kindAt]
    rw [hnext]
    exact Markup.lex_key ha.name k (hkey ▸ List.mem_cons_self ..)

/-- A row of attributes is read one by one. -/
theorem attributesFrom_forms (code : EmbeddedCode σ) {as : List AttributeForm}
    (has : ∀ a ∈ as, a.Written) (ht : t.kind = .closeAngle) (hh : c.held = [])
    (hflag : c.context.ephemeralLineEnding = false)
    (ha : c.ahead = as.flatMap AttributeForm.tokens ++ t :: rest)
    {bound : Nat} (hb : as.length < bound) :
    Covers (as.flatMap AttributeForm.tokens) (as.flatMap AttributeForm.pieces) c
        (attributesFrom code bound c).2 ∧
      (c.overrun = 0 → (attributesFrom code bound c).1 = as.map toAttribute) := by
  induction as generalizing c bound with
  | nil =>
    obtain ⟨bound, rfl⟩ := Nat.exists_eq_add_of_lt hb
    rw [List.length_nil, Nat.zero_add, attributesFrom_atTagEnd (.inl (by rw [ha]; exact ht))]
    exact ⟨.refl hh, fun _ => rfl⟩
  | cons a as ih =>
    cases bound with
    | zero => exact absurd hb (Nat.not_lt_zero _)
    | succ bound =>
      obtain ⟨hwritten, has'⟩ := List.forall_mem_cons.mp has
      obtain ⟨k, key, hkey⟩ := List.exists_cons_of_ne_nil hwritten.lex_name_ne_nil
      have hk : k.kind.endsAttributeName = false :=
        Markup.lex_key hwritten.name k (hkey ▸ List.mem_cons_self ..)
      have hline : c.ahead =
          [⟨.whitespace, [' ']⟩] ++ (a.body ++ (as.flatMap AttributeForm.tokens ++ t :: rest)) := by
        simp [ha, AttributeForm.tokens]
      have hfirst : a.body ++ (as.flatMap AttributeForm.tokens ++ t :: rest) =
          k :: (a.body.tail ++ (as.flatMap AttributeForm.tokens ++ t :: rest)) := by
        simp [body, hkey]
      have hblank : Covers [⟨.whitespace, [' ']⟩] [.leaf ⟨.whitespace, [' ']⟩] c
          (c.bumpWhile (·.kind.isTrivia)) := by
        refine .bumpWhile hh hline (fun t ht => ?_) ?_
        · rw [List.mem_singleton.mp ht]
          rfl
        · rw [hfirst]
          rintro t ⟨⟩
          revert hk
          generalize k.kind = kind
          cases kind <;> decide
      have hbody := hblank.ahead_eq hline
      have hcontext := hblank.context_eq
      obtain ⟨hread, hattribute⟩ := readAttribute_written code hwritten (endsAttribute_tokens has' ht)
        hblank.held (by rw [hcontext, hflag]) hbody
      have hboth := hblank.trans hread
      obtain ⟨hrest, hattributes⟩ := ih has' hboth.held (by rw [hboth.context_eq, hflag])
        (hread.ahead_eq hbody) (Nat.lt_of_succ_lt_succ hb)
      rw [attributesFrom_default rfl (hbody.trans hfirst) hk]
      refine ⟨hboth.trans hrest, fun ho => ?_⟩
      rw [hattribute (hblank.overrun.trans ho), hattributes (hboth.overrun.trans ho), List.map_cons]

/-- A row of attributes is read up to the end of the tag. -/
theorem attributes_forms (code : EmbeddedCode σ) {as : List AttributeForm}
    (has : ∀ a ∈ as, a.Written) (ht : t.kind = .closeAngle) (hh : c.held = [])
    (hflag : c.context.ephemeralLineEnding = false)
    (hne : ∀ t ∈ as.flatMap AttributeForm.tokens, t.text ≠ [])
    (ha : c.ahead = as.flatMap AttributeForm.tokens ++ t :: rest) :
    Covers (as.flatMap AttributeForm.tokens) (as.flatMap AttributeForm.pieces) c
        (c.attributes code).2 ∧
      (c.overrun = 0 → (c.attributes code).1 = as.map toAttribute) := by
  have hcount : as.length ≤ (as.flatMap AttributeForm.tokens).length :=
    length_le_flatMap (fun _ => Nat.le_add_left 1 _) as
  exact attributesFrom_forms code has ht hh hflag ha
    (Nat.lt_of_le_of_lt hcount (length_lt_budget code ha hne))

end Cursor

end TemplateMarkup
