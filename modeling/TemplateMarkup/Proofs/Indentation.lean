import TemplateMarkup.Proofs.Contexts
import TemplateMarkup.Proofs.Outcome
import TemplateMarkup.Proofs.TokenNodes
import TemplateMarkup.Proofs.TokenTable
import TemplateMarkup.Tree.Outline

/-! # Indentation in front of code

A scan keeps in a `LinePlace` where in its line it stands. This is always the place
behind the tokens that the scan has read itself since the code parser was called
last, or since it began. So blanks are handed over with the code behind them if the
scan has read the line ending in front of them. If a line of code has claimed that
line ending, they are not, although they are indentation all the same. -/

namespace TemplateMarkup

open Token

/-- The place behind tokens, the latest first. -/
def LinePlace.behind : List Token → LinePlace
  | [] => .inside
  | t :: before =>
    if t.kind = .newline then .start
    else if t.kind = .whitespace ∧ behind before = .start then .indent
    else .inside

namespace LinePlace

variable {t : Token} {before : List Token}

theorem behind_newline (h : t.kind = .newline) : behind (t :: before) = .start := if_pos h

theorem behind_other (h : t.kind ≠ .newline) (hblank : t.kind ≠ .whitespace) :
    behind (t :: before) = .inside := by
  simp [behind, h, hblank]

/-- Blanks are indentation where a line begins. -/
theorem behind_blanks (h : t.kind = .whitespace) (hplace : behind before ≠ .indent) :
    behind (t :: before) = if behind before = .inside then .inside else .indent := by
  rw [behind, h]
  cases hbehind : behind before with
  | start | inside => rfl
  | indent => exact absurd hbehind hplace

theorem behind_eq_start :
    behind before = .start ↔ ∃ ending rest, before = ending :: rest ∧ ending.kind = .newline := by
  cases before with
  | nil => simp [behind]
  | cons t before =>
    rw [behind]
    by_cases ht : t.kind = .newline
    · simp [ht]
    · by_cases hblank : t.kind = .whitespace ∧ behind before = .start <;> simp [ht, hblank]

theorem behind_eq_indent : behind before = .indent ↔ ∃ blanks ending rest,
    before = blanks :: ending :: rest ∧ blanks.kind = .whitespace ∧ ending.kind = .newline := by
  cases before with
  | nil => simp [behind]
  | cons t before =>
    have hstart := @behind_eq_start before
    rw [behind]
    grind

end LinePlace

/-! ## No two tokens of blanks stand side by side -/

theorem Token.blankChars_of_belongs {text : List Char} (h : Belongs .whitespace text) :
    ∀ c ∈ text, c ∈ blankChars := by
  cases h with
  | word hword => exact absurd hword (by simp [words])
  | blanks _ hall => exact hall

theorem Token.not_blanks_infix_lex (source : List Char) :
    ¬ [Kind.whitespace, .whitespace] <:+: (lex source).map Token.kind := by
  rintro ⟨front, back, hkinds⟩
  rw [List.append_assoc] at hkinds
  obtain ⟨before, ts, hlex, -, hts⟩ := List.map_eq_append_iff.mp hkinds.symm
  obtain ⟨a, us, rfl, ha, hus⟩ := List.map_eq_cons_iff.mp hts
  obtain ⟨b, after, rfl, hb, -⟩ := List.map_eq_cons_iff.mp hus
  obtain ⟨hfirst, hmax, hsecond, -⟩ := (maximalMunch_lex source).suffix ⟨before, hlex.symm⟩
  have hblanks : ∀ c ∈ a.text ++ b.text, c ∈ blankChars := by
    intro c hc
    rcases List.mem_append.mp hc with hc | hc
    · exact blankChars_of_belongs ((hfirst.belongs_iff _).mpr ha.symm) c hc
    · exact blankChars_of_belongs ((hsecond.belongs_iff _).mpr hb.symm) c hc
  refine hmax b.text hsecond.text_ne_nil ⟨textOf after, rfl⟩ .whitespace (.blanks ?_ hblanks)
  exact List.append_ne_nil_of_left_ne_nil hfirst.text_ne_nil _

namespace Cursor

variable {σ : Type} {c d e c₀ : Cursor σ} {code : EmbeddedCode σ} {stop : Cursor σ → Bool}
  {place : LinePlace} {read : List Token}

/-! ## What is not accepted only gets less -/

/-- The tokens not accepted, in the order of the source. -/
def unaccepted (c : Cursor σ) : List Token := c.held.reverse ++ c.ahead

/-- The options are the same, and the tokens not accepted are of the last of the kinds before. A token
that is accepted in part counts as not accepted. -/
structure Onward (c d : Cursor σ) : Prop where
  options : d.context.options = c.context.options
  kinds : d.unaccepted.map Token.kind <:+ c.unaccepted.map Token.kind

namespace Onward

theorem refl (c : Cursor σ) : Onward c c := ⟨rfl, List.suffix_rfl⟩

theorem trans (h : Onward c d) (h' : Onward d e) : Onward c e :=
  ⟨h'.options.trans h.options, h'.kinds.trans h.kinds⟩

theorem of_suffix (hoptions : d.context.options = c.context.options)
    (h : d.unaccepted <:+ c.unaccepted) : Onward c d := ⟨hoptions, h.map Token.kind⟩

theorem of_same (hcontext : d.context = c.context) (hheld : d.held = c.held)
    (hahead : d.ahead = c.ahead) : Onward c d :=
  of_suffix (by rw [hcontext]) (by simp [unaccepted, hheld, hahead])

theorem bump (c : Cursor σ) : Onward c c.bump := by
  refine of_suffix (by rw [context_bump]) ?_
  cases ha : c.ahead with
  | nil => simp [bump_nil ha]
  | cons t rest =>
    rw [unaccepted, held_bump ha, ahead_bump, unaccepted, ha]
    exact ⟨c.held.reverse ++ [t], by simp⟩

theorem advance (c : Cursor σ) : Onward c c.advance := by
  refine of_suffix (by rw [context_advance]) ?_
  cases ha : c.ahead with
  | nil => simp [Cursor.advance, ha]
  | cons t rest => simp [Cursor.advance, ha, unaccepted]

theorem acceptRead (c : Cursor σ) : Onward c c.acceptRead :=
  of_suffix (by rw [context_acceptRead])
    ⟨c.held.reverse, by rw [unaccepted, held_acceptRead, ahead_acceptRead]; rfl⟩

theorem putBack (c : Cursor σ) : Onward c c.putBack :=
  of_suffix rfl (by simp [unaccepted, held_putBack, ahead_putBack])

theorem flush (c : Cursor σ) (kind : Kind) : Onward c (c.flush kind) :=
  of_same (context_flush c kind) (held_flush c kind) (ahead_flush c kind)

theorem complete (c : Cursor σ) (m : Marker) (kind : Kind) : Onward c (c.complete m kind) :=
  of_same (context_complete c m kind) (held_complete c m kind) (ahead_complete c m kind)

theorem start (c : Cursor σ) : Onward c c.start.2 :=
  of_same (context_flush c _) (held_flush c _) (ahead_flush c _)

theorem flushRaw (c : Cursor σ) : Onward c c.flushRaw := of_same rfl rfl rfl

theorem bumpN (c : Cursor σ) (n : Nat) : Onward c (c.bumpN n) := by
  induction n generalizing c with
  | zero => exact refl c
  | succ n ih => exact (bump c).trans (ih c.bump)

theorem eat (c : Cursor σ) (kind : Kind) : Onward c (c.eat kind).2 := by
  unfold Cursor.eat
  split
  · exact bump c
  · exact refl c

/-- The rest of a token stands for the whole. -/
theorem splitAfter_bump (c : Cursor σ) (count : Nat) : Onward c (c.splitAfter count).bump := by
  unfold splitAfter
  split
  · exact bump c
  · next t rest ha =>
    split
    · refine ⟨rfl, ⟨c.held.reverse.map Token.kind, ?_⟩⟩
      simp [unaccepted, Cursor.bump, ha]
    · exact bump c

theorem acceptKeeps (c : Cursor σ) : AcceptKeeps (Onward c) where
  bump h := h.trans (bump _)
  front count h := h.trans (splitAfter_bump _ count)

theorem expressionBody (c : Cursor σ) : Onward c c.expressionBody :=
  (acceptKeeps c).expressionBody (fun _ h => h.trans (of_same rfl rfl rfl)) (refl c)

theorem implicitExpression (c : Cursor σ) : Onward c c.implicitExpression := by
  unfold Cursor.implicitExpression
  dsimp only
  split
  · exact (((start c).trans (bumpN _ _)).trans (expressionBody _)).trans
      ((flushRaw _).trans (complete _ _ _))
  · exact refl c

theorem codeLine (c : Cursor σ) : Onward c c.codeLine :=
  (((start c).trans (bumpN _ _)).trans (eat _ .newline)).trans ((flushRaw _).trans (complete _ _ _))

theorem statement (c : Cursor σ) : Onward c c.statement := by
  have hnode := (((start c).trans (bump _)).trans
    (bumpN _ (c.start.2.bump.runLength (·.kind == .text) 0))).trans
      ((flushRaw _).trans (complete _ c.start.1 .codeBlock))
  unfold Cursor.statement
  dsimp only
  rw [bumpWhile]
  generalize ((c.start.2.bump.bumpN _).flushRaw).complete c.start.1 .codeBlock = d at hnode ⊢
  exact ⟨hnode.options, hnode.kinds⟩

theorem inlineComment (c : Cursor σ) : Onward c c.inlineComment := by
  unfold Cursor.inlineComment
  split
  · exact (((start c).trans (bump _)).trans (bumpN _ _)).trans
      ((eat _ .commentClose).trans ((flushRaw _).trans (complete _ _ _)))
  · exact refl c

theorem ensureProgress (before : Nat) (c : Cursor σ) :
    Onward c (EmbeddedCode.ensureProgress before c) := by
  unfold EmbeddedCode.ensureProgress
  split
  · exact (bump c).trans (flush _ _)
  · exact refl c

theorem beforeCode (place : LinePlace) (c : Cursor σ) : Onward c (c.beforeCode place) := by
  unfold Cursor.beforeCode
  split
  · exact (putBack c).trans (flush _ _)
  · exact (acceptRead c).trans (flush _ _)

theorem beforeComment (place : LinePlace) (c : Cursor σ) : Onward c (c.beforeComment place) :=
  ((flush c _).trans (acceptRead _)).trans (flush _ _)

theorem endLine (c : Cursor σ) : Onward c c.endLine.2 := by
  unfold Cursor.endLine ephemeralLineEnd
  generalize (if c.at? .whitespace then 1 else 0) = blanks
  dsimp only
  split
  · exact (bumpN c _).trans (flush _ _)
  · exact refl c

end Onward

end Cursor

/-- Each call leaves the options alone and takes tokens from the front. Comments ask for nothing. -/
structure EmbeddedCode.Onward {σ : Type} (code : EmbeddedCode σ) : Prop where
  block (c : Cursor σ) : c.Onward (code.block c)
  comment (c : Cursor σ) : c.Onward (code.comment c)
  context_comment (c : Cursor σ) : (code.comment c).context = c.context

namespace Cursor

variable {σ : Type} {c d e c₀ : Cursor σ} {code : EmbeddedCode σ} {stop : Cursor σ → Bool}
  {place : LinePlace} {read : List Token}

/-! ## A scan, step by step -/

/-- Where the code parser has left the cursor last, when a scan takes a step from `c` and it was `e`
before. -/
def leftAfter (code : EmbeddedCode σ) (place : LinePlace) (c e : Cursor σ) : Cursor σ :=
  if c.context.ephemeralLineEnding then e
  else
    match c.current with
    | .transition => if c.nth 1 = .transition then e else code.block (c.beforeCode place)
    | .commentOpen => code.comment (c.beforeComment place)
    | _ => e

/-- A scan that began at `c₀` is at `c`, with this place in its line. The code parser has left the
cursor at `e` last. If it has not been called yet, `e` is where the scan began. -/
inductive Scan (code : EmbeddedCode σ) (stop : Cursor σ → Bool) (c₀ : Cursor σ) :
    Cursor σ → LinePlace → Cursor σ → Prop
  | begin : Scan code stop c₀ c₀ .inside c₀
  | step {e c : Cursor σ} {place : LinePlace} : Scan code stop c₀ e place c → c.atEnd = false →
      stop c = false → Scan code stop c₀ (c.leftAfter code place e) (c.scanStep code place).1
        (c.scanStep code place).2

/-- These tokens, the latest first, are what a scan has read since `e`, and its place is the one
behind them. -/
structure InStep (read : List Token) (e : Cursor σ) (place : LinePlace) (c : Cursor σ) : Prop where
  tokens : c.tokens = e.tokens
  ahead : e.ahead = read.reverse ++ c.ahead
  behind : place = .behind read
  held : place = .indent → c.held = read.take 1
  due : c.context.ephemeralLineEnding = true → read = []

theorem InStep.refl (c : Cursor σ) : InStep [] c .inside c :=
  ⟨rfl, rfl, rfl, (fun hplace => by cases hplace), fun _ => rfl⟩

theorem inStep_endLine (htokens : d.tokens = e.tokens) (he : d.ahead = e.ahead)
    (hdue : d.context.ephemeralLineEnding = false) :
    ∃ read, InStep read e d.endLine.1 d.endLine.2 := by
  unfold endLine ephemeralLineEnd
  generalize (if d.at? .whitespace then 1 else 0) = blanks
  dsimp only
  split
  · next hk =>
    have hlt : blanks < d.ahead.length := lt_length_of_nth (by rw [hk]; decide)
    have hending : d.ahead[blanks].kind = .newline := by simpa [nth, Token.kindAt, hlt] using hk
    refine ⟨d.ahead[blanks] :: (d.ahead.take blanks).reverse, ?_, ?_, ?_,
      (fun hplace => by cases hplace), fun hflag => ?_⟩
    · rw [tokens_flush, tokens_bumpN, htokens]
    · rw [List.reverse_cons, List.reverse_reverse, ← List.take_succ_eq_append_getElem hlt,
        ahead_flush, ahead_bumpN, List.take_append_drop, he]
    · exact (LinePlace.behind_newline hending).symm
    · rw [context_flush, context_bumpN, hdue] at hflag
      cases hflag
  · exact ⟨[], htokens, he.symm, rfl, (fun hplace => by cases hplace), fun _ => rfl⟩

/-- The two halves of a doubled `@` have been read. -/
theorem InStep.doubled (h : InStep read e place c) (hflag : c.context.ephemeralLineEnding = false)
    (hne : c.ahead ≠ []) (hk : c.nth 1 = .transition) :
    ∃ read, InStep read e .inside ((c.acceptRead.flush .literal).bump.flush .ephemeral).bump := by
  obtain ⟨t, rest, ha⟩ := List.exists_cons_of_ne_nil hne
  obtain ⟨u, more, rfl⟩ : ∃ u more, rest = u :: more := by
    cases rest with
    | nil => simp [nth, Token.kindAt, ha] at hk
    | cons u more => exact ⟨u, more, rfl⟩
  have hsecond : u.kind = .transition := by simpa [nth, Token.kindAt, ha] using hk
  refine ⟨u :: t :: read, ?_, ?_, ?_, (fun hplace => by cases hplace), fun hdue => ?_⟩
  · simp [h.tokens]
  · simp [ahead_bump, h.ahead, ha]
  · exact (LinePlace.behind_other (by simp [hsecond]) (by simp [hsecond])).symm
  · simp [hflag] at hdue

/-- Blanks are not read twice in a row, so the first ones of a line are those that begin it. -/
theorem InStep.behind_held {rest : List Token} (h : InStep read e place c) (ha : c.ahead = t :: rest)
    (hblanks : ¬ [Kind.whitespace, .whitespace] <:+: e.ahead.map Token.kind)
    (hother : t.kind ≠ .newline) :
    (if t.kind = .whitespace ∧ place ≠ .inside then LinePlace.indent else .inside) =
      .behind (t :: read) := by
  by_cases hk : t.kind = .whitespace
  · have hplace : LinePlace.behind read ≠ .indent := by
      rw [ne_eq, LinePlace.behind_eq_indent]
      rintro ⟨blanks, ending, before, rfl, hblank, -⟩
      refine hblanks ⟨(ending :: before).reverse.map Token.kind, rest.map Token.kind, ?_⟩
      simp [h.ahead, ha, hk, hblank]
    rw [LinePlace.behind_blanks hk hplace, h.behind, hk]
    split <;> simp_all
  · rw [if_neg fun hboth => hk hboth.1]
    exact (LinePlace.behind_other hother hk).symm

/-- A step keeps the scan in step. -/
theorem InStep.scanStep (hcode : code.Onward) (h : InStep read e place c) (hne : c.ahead ≠ [])
    (hblanks : ¬ [Kind.whitespace, .whitespace] <:+: e.ahead.map Token.kind) :
    ∃ read, InStep read (c.leftAfter code place e) (c.scanStep code place).1
      (c.scanStep code place).2 := by
  obtain ⟨t, rest, ha⟩ := List.exists_cons_of_ne_nil hne
  have hcur : c.current = t.kind := current_cons ha
  have hread : e.ahead = (t :: read).reverse ++ rest := by rw [h.ahead, ha]; simp
  have ho := scanStep_outcome code place c
  generalize c.scanStep code place = r at ho ⊢
  cases ho with
  | lineEnding hflag =>
    rw [show c.leftAfter code place e = e by simp [leftAfter, hflag]]
    refine inStep_endLine ?_ ?_ (by simp)
    · rw [tokens_flush, tokens_acceptRead]
      exact h.tokens
    · rw [ahead_flush, ahead_acceptRead, h.ahead, h.due hflag]
      rfl
  | newline hflag hk =>
    rw [show c.leftAfter code place e = e by simp [leftAfter, hflag, hk]]
    refine ⟨t :: read, ?_, ?_, ?_, (fun hplace => by cases hplace), fun hdue => ?_⟩
    · rw [tokens_bump, h.tokens]
    · rw [ahead_bump, ha, List.tail_cons, hread]
    · exact (LinePlace.behind_newline (hcur.symm.trans hk)).symm
    · rw [context_bump, hflag] at hdue
      cases hdue
  | doubled hflag hk hk' =>
    rw [show c.leftAfter code place e = e by simp [leftAfter, hflag, hk, hk']]
    exact h.doubled hflag hne hk'
  | code hflag hk hk' =>
    rw [show c.leftAfter code place e = code.block (c.beforeCode place) by
      simp [leftAfter, hflag, hk, hk']]
    exact ⟨[], .refl _⟩
  | comment hflag hk =>
    rw [show c.leftAfter code place e = code.comment (c.beforeComment place) by
      simp [leftAfter, hflag, hk]]
    exact ⟨[], .refl _⟩
  | commentLine hflag hk =>
    rw [show c.leftAfter code place e = code.comment (c.beforeComment place) by
      simp [leftAfter, hflag, hk]]
    exact inStep_endLine rfl rfl (by rw [hcode.context_comment, context_beforeComment, hflag])
  | other hflag hnewline htransition hcomment =>
    have hsame : c.leftAfter code place e = e := by
      unfold leftAfter
      rw [if_neg (by simp [hflag])]
      split <;> simp_all
    rw [hsame]
    refine ⟨t :: read, ?_, ?_, ?_, ?_, ?_⟩
    · simp [h.tokens]
    · simp [Cursor.advance, ha, hread]
    · rw [hcur]
      exact h.behind_held ha hblanks fun hk => hnewline (hcur.trans hk)
    · simp [Cursor.advance, ha]
    · simp [hflag]

theorem Onward.scanStep (hcode : code.Onward) (place : LinePlace) (c : Cursor σ) :
    Onward c (c.scanStep code place).2 := by
  have ho := scanStep_outcome code place c
  generalize c.scanStep code place = r at ho ⊢
  have hcomment := (Onward.beforeComment place c).trans (hcode.comment _)
  cases ho with
  | lineEnding =>
    have hanswer : Onward c { c with context.ephemeralLineEnding := false } := ⟨rfl, List.suffix_rfl⟩
    exact ((hanswer.trans (.acceptRead _)).trans (.flush _ _)).trans (.endLine _)
  | newline => exact .bump c
  | doubled =>
    exact ((((Onward.acceptRead c).trans (.flush _ _)).trans (.bump _)).trans (.flush _ _)).trans
      (.bump _)
  | code => exact (Onward.beforeCode place c).trans (hcode.block _)
  | comment => exact hcomment
  | commentLine => exact hcomment.trans (.endLine _)
  | other => exact (Onward.acceptRead c).trans (.advance _)

theorem Onward.leftAfter (hcode : code.Onward) (place : LinePlace)
    (hc : Onward c₀ c) (he : Onward c₀ e) : Onward c₀ (c.leftAfter code place e) := by
  unfold Cursor.leftAfter
  split
  · exact he
  · split
    · split
      · exact he
      · exact hc.trans ((Onward.beforeCode place c).trans (hcode.block _))
    · exact hc.trans ((Onward.beforeComment place c).trans (hcode.comment _))
    · exact he

namespace Scan

theorem onward (hcode : code.Onward) (h : Scan code stop c₀ e place c) :
    Onward c₀ e ∧ Onward c₀ c := by
  induction h with
  | begin => exact ⟨.refl c₀, .refl c₀⟩
  | step _ _ _ ih =>
    obtain ⟨he, hc⟩ := ih
    exact ⟨.leftAfter hcode _ hc he, hc.trans (.scanStep hcode _ _)⟩

/-- A scan is in step with its line, however often the code parser is called. -/
theorem inStep (hcode : code.Onward)
    (hblanks : ¬ [Kind.whitespace, .whitespace] <:+: c₀.unaccepted.map Token.kind)
    (h : Scan code stop c₀ e place c) : ∃ read, InStep read e place c := by
  induction h with
  | begin => exact ⟨[], .refl _⟩
  | @step e c place hscan hend _ ih =>
    obtain ⟨read, hstep⟩ := ih
    refine hstep.scanStep hcode (by simpa [atEnd] using hend) fun hin => hblanks ?_
    have hahead : e.ahead.map Token.kind <:+ e.unaccepted.map Token.kind :=
      (List.suffix_append _ _).map Token.kind
    exact (hin.trans hahead.isInfix).trans (hscan.onward hcode).1.kinds.isInfix

/-- A scan that does not stall comes to a place where it may stop, and accepts what it has read. -/
theorem stops {bound : Nat} (h : Scan code stop c₀ e place c)
    (hfault : (scanFrom code stop bound place c).fault = none) :
    ∃ e' place' d, Scan code stop c₀ e' place' d ∧ (d.atEnd || stop d) = true ∧
      scanFrom code stop bound place c = d.acceptRead := by
  induction bound generalizing e place c with
  | zero => simp [scanFrom, fail] at hfault
  | succ bound ih =>
    unfold scanFrom at hfault ⊢
    by_cases hstop : (c.atEnd || stop c) = true
    · exact ⟨e, place, c, h, hstop, if_pos hstop⟩
    · simp only [if_neg hstop] at hfault ⊢
      obtain ⟨hend, hno⟩ : c.atEnd = false ∧ stop c = false := by simpa using hstop
      exact ih (h.step hend hno) hfault

end Scan

/-! ## Handing over -/

/-- The tokens in front of the cursor, the latest first. -/
def passed (c : Cursor σ) : List Token := c.held ++ c.pending ++ c.flushed

theorem tokens_eq_passed (c : Cursor σ) : c.tokens = c.passed.reverse ++ c.ahead := by
  simp [tokens, passed]

/-- Directly in front of the cursor are blanks, and directly in front of these a line ending. -/
def Indented (c : Cursor σ) : Prop := ∃ blanks ending before,
  c.passed = blanks :: ending :: before ∧ blanks.kind = .whitespace ∧ ending.kind = .newline

theorem InStep.passed (h : InStep read e place c) : c.passed = read ++ e.passed := by
  have htokens := h.tokens
  rw [tokens_eq_passed, tokens_eq_passed, h.ahead, ← List.append_assoc,
    ← List.reverse_append] at htokens
  exact List.reverse_injective (List.append_cancel_right htokens)

/-- The blanks are held if the scan has read them and the line ending itself. -/
theorem InStep.indent_iff (h : InStep read e place c) :
    place = .indent ↔ c.Indented ∧ c.ahead.length + 2 ≤ e.ahead.length := by
  rw [h.behind, LinePlace.behind_eq_indent, Indented, h.passed, h.ahead]
  constructor
  · rintro ⟨blanks, ending, before, rfl, hkinds⟩
    exact ⟨⟨blanks, ending, before ++ e.passed, rfl, hkinds⟩, by simp⟩
  · rintro ⟨⟨blanks, ending, before, hpassed, hkinds⟩, hlen⟩
    have htwo : 2 ≤ read.length := by
      rw [List.length_append, List.length_reverse] at hlen
      omega
    match read, htwo with
    | t :: u :: rest, _ =>
      cases hpassed
      exact ⟨blanks, ending, rest, rfl, hkinds⟩

theorem InStep.beforeCode (h : InStep read e place c)
    (hdesign : c.context.options.designTime = false) :
    (c.Indented ∧ c.ahead.length + 2 ≤ e.ahead.length → ∃ blanks, blanks.kind = .whitespace ∧
      (c.beforeCode place).ahead = blanks :: c.ahead) ∧
    (¬ (c.Indented ∧ c.ahead.length + 2 ≤ e.ahead.length) →
      (c.beforeCode place).ahead = c.ahead) := by
  rw [← h.indent_iff]
  constructor
  · intro hplace
    obtain ⟨blanks, ending, before, rfl, hblanks, -⟩ :=
      LinePlace.behind_eq_indent.mp (h.behind.symm.trans hplace)
    refine ⟨blanks, hblanks, ?_⟩
    unfold Cursor.beforeCode
    rw [if_pos ⟨hplace, by simp [hdesign]⟩, ahead_flush, ahead_putBack, h.held hplace]
    rfl
  · intro hplace
    unfold Cursor.beforeCode
    rw [if_neg fun hboth => hplace hboth.1, ahead_flush, ahead_acceptRead]

theorem onward_of_inlineComment (hblock : ∀ c, Onward c (code.parseBlock c))
    (hcomment : code.parseComment = inlineComment) : code.Onward where
  block c := (hblock c).trans (.ensureProgress _ _)
  comment c := by
    rw [EmbeddedCode.comment, hcomment]
    exact (Onward.inlineComment c).trans (.ensureProgress _ _)
  context_comment c := by
    rw [EmbeddedCode.comment, hcomment, context_ensureProgress, context_inlineComment]

/-- What is recorded is the host's affair. -/
theorem onward_recording (c : Cursor (List Bool)) :
    Onward c (EmbeddedCode.recorder.parseBlock c) := by
  have hrecord : Onward c { c with host := c.host ++ [c.context.whitespaceSignificant] } :=
    .of_same rfl rfl rfl
  exact hrecord.trans (.implicitExpression _)

end Cursor

namespace Sample

open Cursor

theorem onward (sample : Sample) : sample.code.Onward := by
  cases sample with
  | implicit => exact onward_of_inlineComment Onward.implicitExpression rfl
  | statement =>
    refine onward_of_inlineComment (fun c => ?_) rfl
    rw [Sample.code, parseBlock_statement]
    exact Onward.statement c
  | nothing =>
    exact ⟨fun c => .ensureProgress _ c, fun c => .ensureProgress _ c,
      fun c => context_ensureProgress _ c⟩
  | line =>
    refine onward_of_inlineComment (fun c => ?_) rfl
    rw [Sample.code, parseBlock_line]
    exact Onward.codeLine c
  | recorder => exact onward_of_inlineComment onward_recording rfl

/-- Blanks are handed over with the code behind them if a line ending comes directly in front of them
and the scan has read both itself, since it began and since the code parser was called last. If not,
the code parser gets the cursor on the `@`. -/
theorem scan_handsOver (sample : Sample) {source : List Char} {stop : Cursor sample.Host → Bool}
    {c₀ e c : Cursor sample.Host} {place : LinePlace}
    (hsource : c₀.unaccepted.map Token.kind <:+ (lex source).map Token.kind)
    (hdesign : c₀.context.options.designTime = false) (h : Scan sample.code stop c₀ e place c)
    (hdue : c.context.ephemeralLineEnding = false) (hcode : c.current = .transition)
    (hnext : c.nth 1 ≠ .transition) :
    ∃ d, c.scanStep sample.code place = (.inside, sample.code.block d) ∧
      (c.Indented ∧ c.ahead.length + 2 ≤ e.ahead.length →
        ∃ blanks, blanks.kind = .whitespace ∧ d.ahead = blanks :: c.ahead) ∧
      (¬ (c.Indented ∧ c.ahead.length + 2 ≤ e.ahead.length) → d.ahead = c.ahead) := by
  have hblanks : ¬ [Kind.whitespace, .whitespace] <:+: c₀.unaccepted.map Token.kind :=
    fun hin => not_blanks_infix_lex source (hin.trans hsource.isInfix)
  obtain ⟨read, hstep⟩ := h.inStep sample.onward hblanks
  have hoptions := (h.onward sample.onward).2.options
  refine ⟨c.beforeCode place, ?_, hstep.beforeCode (by rw [hoptions, hdesign])⟩
  have ho := scanStep_outcome sample.code place c
  generalize c.scanStep sample.code place = r at ho ⊢
  cases ho with
  | code => rfl
  | lineEnding hflag => rw [hdue] at hflag; cases hflag
  | newline _ hk | comment _ hk | commentLine _ hk => rw [hcode] at hk; cases hk
  | doubled _ _ hk => exact absurd hk hnext
  | other _ _ hk => exact absurd hcode hk

/-- Behind the start tag that a source begins with, where the scan of its content begins. -/
def content (code : EmbeddedCode Unit) (source : String) : Cursor Unit :=
  ((ofSource source.toList {} ()).tag code []).cursor

/-- The scan of a list's content hands over an item with its indentation. -/
theorem scan_handsOver_item : ∃ place c d blanks,
    Scan .implicit (·.at? .openAngle) (content .implicit "<ul>\n    @item\n</ul>")
      (content .implicit "<ul>\n    @item\n</ul>") place c ∧
      c.ahead = lex "@item\n</ul>".toList ∧
      c.scanStep .implicit place = (.inside, EmbeddedCode.implicit.block d) ∧
      blanks.kind = .whitespace ∧ d.ahead = blanks :: c.ahead := by
  have hsource : (content .implicit "<ul>\n    @item\n</ul>").unaccepted.map Token.kind <:+
      (lex "<ul>\n    @item\n</ul>".toList).map Token.kind := by decide +kernel
  have hbegin : Scan .implicit (·.at? .openAngle) (content .implicit "<ul>\n    @item\n</ul>") _ _ _ :=
    .begin
  have hscan := (hbegin.step (by decide +kernel) (by decide +kernel)).step (by decide +kernel)
    (by decide +kernel)
  obtain ⟨d, hstep, hblanks, -⟩ := scan_handsOver .implicit hsource rfl hscan (by decide +kernel)
    (by decide +kernel) (by decide +kernel)
  obtain ⟨blanks, hkind, hahead⟩ := hblanks ⟨⟨⟨.whitespace, "    ".toList⟩, ⟨.newline, ['\n']⟩,
    (lex "<ul>".toList).reverse, by decide +kernel, rfl, rfl⟩, by decide +kernel⟩
  exact ⟨_, _, d, blanks, hscan, by decide +kernel, hstep, hkind, hahead⟩

/-- Behind a line of code, the next code is indented and is handed over without its indentation, which
becomes literal text. -/
theorem scan_leaves_indentation :
    (∃ e place c d, Scan .line (·.at? .openAngle) (content .line "<p>@a\n  @b\n</p>") e place c ∧
      c.Indented ∧ c.current = .transition ∧ c.nth 1 ≠ .transition ∧
      c.scanStep .line place = (.inside, EmbeddedCode.line.block d) ∧ d.current = .transition) ∧
    ∃ p, Parser.parse ⟨some {}, Sample.line.code, ()⟩ none "<p>@a\n  @b\n</p>" = .ok p ∧
      [⟨3, .codeBlock, 3, 6, none⟩, ⟨3, .literal, 6, 8, none⟩, ⟨3, .codeBlock, 8, 11, none⟩] =
        p.tree.outline.filter fun entry => entry.depth = 3 ∧ 3 ≤ entry.start ∧ entry.start < 11 := by
  constructor
  · have hbegin : Scan .line (·.at? .openAngle) (content .line "<p>@a\n  @b\n</p>") _ _ _ := .begin
    have hscan := (hbegin.step (by decide +kernel) (by decide +kernel)).step (by decide +kernel)
      (by decide +kernel)
    refine ⟨_, _, _, Cursor.beforeCode .inside _, hscan, ?_, by decide +kernel, by decide +kernel, rfl,
      by decide +kernel⟩
    exact ⟨⟨.whitespace, [' ', ' ']⟩, ⟨.newline, ['\n']⟩, (lex "<p>@a".toList).reverse,
      by decide +kernel, rfl, rfl⟩
  · have hcheck : (Parser.parse ⟨some {}, Sample.line.code, ()⟩ none "<p>@a\n  @b\n</p>").toOption.any
        (fun p => decide ([⟨3, .codeBlock, 3, 6, none⟩, ⟨3, .literal, 6, 8, none⟩,
          ⟨3, .codeBlock, 8, 11, none⟩] = p.tree.outline.filter fun entry =>
            entry.depth = 3 ∧ 3 ≤ entry.start ∧ entry.start < 11)) = true := by decide +kernel
    obtain ⟨p, hp, hentries⟩ := Parse.exists_of_check hcheck
    exact ⟨p, hp, of_decide_eq_true hentries⟩

end Sample

end TemplateMarkup
