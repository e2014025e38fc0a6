import TemplateMarkup.Proofs.NestingText
import TemplateMarkup.Proofs.Parallel.Expressions
import TemplateMarkup.Proofs.Parallel.Parses
import TemplateMarkup.Proofs.Parallel.Sources
import TemplateMarkup.Proofs.TagHeads
import TemplateMarkup.Proofs.Takes

/-! # Where a nested region ends

The parser splits a text token behind each sequence that it finds. In a source
without tags and code this comes to one scan over the characters of the source,
since where ordinary characters meet, they are in one token. In every source, what
is left behind the region begins with the closing sequence. -/

namespace TemplateMarkup

open Cursor

/-! ## The tokens of a source without tags and code -/

namespace Token

/-- Tokens without tags and code. Where ordinary characters meet, they are in one token. -/
inductive Plain : List Token → Prop
  | nil : Plain []
  | run {text : List Char} {rest : List Token} (hne : text ≠ []) (hall : Text.Ordinary text)
      (hmore : ∀ c ∈ (textOf rest).head?, Form.ofChar c ≠ .run) (h : Plain rest) :
      Plain (⟨.text, text⟩ :: rest)
  | other {t : Token} {rest : List Token} (hne : t.text ≠ [])
      (hall : ∀ c ∈ t.text, Form.ofChar c ≠ .run) (hpass : Cursor.Passes .openAngle t)
      (h : Plain rest) : Plain (t :: rest)

theorem Plain.of_append {used rest : List Token} (h : Plain (used ++ rest)) : Plain rest := by
  induction used with
  | nil => exact h
  | cons t used ih =>
    cases h with
    | run _ _ _ h => exact ih h
    | other _ _ _ h => exact ih h

/-- A scan passes plain tokens, and only text tokens have ordinary characters. -/
theorem Plain.of_mem {ts : List Token} {t : Token} (h : Plain ts) (ht : t ∈ ts) :
    t.text ≠ [] ∧ Cursor.Passes .openAngle t ∧
      (t.kind ≠ .text → ∀ c ∈ t.text, Form.ofChar c ≠ .run) := by
  induction h with
  | nil => cases ht
  | run hne _ _ _ ih =>
    rcases List.mem_cons.mp ht with rfl | ht
    · exact ⟨hne, ⟨nofun, nofun, nofun, nofun⟩, fun hk => absurd rfl hk⟩
    · exact ih ht
  | other hne hall hpass _ ih =>
    rcases List.mem_cons.mp ht with rfl | ht
    · exact ⟨hne, hpass, fun _ => hall⟩
    · exact ih ht

variable {form : Form} {read rest source : List Char}

/-- Neither `<` nor `@`. -/
def Tagless (c : Char) : Prop := c ≠ '<' ∧ c ≠ '@'

theorem passes_ofChar {c : Char} (hc : Tagless c) (text : List Char) :
    Cursor.Passes .openAngle ⟨(Form.ofChar c).kind, text⟩ := by
  obtain ⟨hangle, hat⟩ := hc
  unfold Cursor.Passes Form.ofChar
  split <;> simp_all [Form.kind]

theorem passes_extend? {longer : Form} {c : Char} (h : form.extend? c = some longer)
    (hform : form.kind ≠ .transition) (text : List Char) :
    Cursor.Passes .openAngle ⟨longer.kind, text⟩ ∧ (longer = .run ↔ form = .run) ∧
      (longer = .run ↔ Form.ofChar c = .run) := by
  revert h
  cases form with
  | whole kind =>
    intro h
    cases h
  | atSign => exact absurd rfl hform
  | blanks | run =>
    unfold Form.extend?
    dsimp only
    split
    · next hof =>
      rintro ⟨⟩
      simp [hof, Cursor.Passes, Form.kind]
    · intro h
      cases h
  | carriageReturn | hyphen | asterisk =>
    unfold Form.extend?
    dsimp only
    split
    · next hof =>
      rintro ⟨⟩
      subst hof
      simp [Cursor.Passes, Form.kind, Form.ofChar]
    · intro h
      cases h

/-- A token that ends where its form refuses the next character goes in front of plain tokens. -/
theorem Plain.cons {more : List Token} (hne : read ≠ [])
    (hread : ∀ c ∈ read, Form.ofChar c = .run ↔ form = .run)
    (hform : Cursor.Passes .openAngle ⟨form.kind, read.reverse⟩)
    (hmore : ∀ c ∈ (textOf more).head?, form.extend? c = none) (h : Plain more) :
    Plain (⟨form.kind, read.reverse⟩ :: more) := by
  by_cases hrun : form = .run
  · subst hrun
    refine .run (by simpa using hne) (fun c hc => (hread c (by simpa using hc)).mpr rfl)
      (fun c hc hof => ?_) h
    have hnone := hmore c hc
    rw [Form.extend?_run hof] at hnone
    cases hnone
  · exact .other (by simpa using hne)
      (fun c hc hof => hrun ((hread c (by simpa using hc)).mp hof)) hform h

theorem plain_lexFrom (hne : read ≠ []) (hread : ∀ c ∈ read, Form.ofChar c = .run ↔ form = .run)
    (hform : Cursor.Passes .openAngle ⟨form.kind, read.reverse⟩) (hrest : ∀ c ∈ rest, Tagless c) :
    Plain (lexFrom form read rest) := by
  induction rest generalizing form read with
  | nil => exact .cons hne hread hform nofun .nil
  | cons c rest ih =>
    obtain ⟨hc, hrest⟩ := List.forall_mem_cons.mp hrest
    rw [lexFrom]
    cases he : form.extend? c with
    | none =>
      refine .cons hne hread hform (fun d hd => ?_)
        (ih (List.cons_ne_nil _ _) (by simp) (passes_ofChar hc _) hrest)
      rw [textOf_lexFrom] at hd
      exact Option.some.inj hd ▸ he
    | some longer =>
      obtain ⟨hpass, hlonger, hof⟩ := passes_extend? he hform.2.1 (c :: read).reverse
      refine ih (List.cons_ne_nil _ _) (List.forall_mem_cons.mpr ⟨hof.symm, fun d hd => ?_⟩) hpass
        hrest
      exact (hread d hd).trans hlonger.symm

theorem plain_lex (h : ∀ c ∈ source, Tagless c) : Plain (lex source) := by
  cases source with
  | nil => exact .nil
  | cons c rest =>
    obtain ⟨hc, hrest⟩ := List.forall_mem_cons.mp h
    exact plain_lexFrom (List.cons_ne_nil _ _) (by simp) (passes_ofChar hc _) hrest

end Token

/-! ## The scan of the parser -/

namespace Cursor

variable {σ : Type} {c : Cursor σ} {n : Nesting} {depth : Nat} {t : Token} {rest : List Token}

theorem ahead_splitAfter_bump {count : Nat} (ha : c.ahead = t :: rest) (hpos : 0 < count) :
    (c.splitAfter count).bump.ahead =
      if count < t.text.length then ⟨t.kind, t.text.drop count⟩ :: rest else rest := by
  rw [ahead_bump]
  unfold splitAfter
  rw [ha]
  dsimp only
  by_cases hlt : count < t.text.length
  · rw [if_pos ⟨hpos, hlt⟩, if_pos hlt]
    rfl
  · rw [if_neg (fun h => hlt h.2), if_neg hlt, ha]
    rfl

/-- What a split leaves of a token is in front of the other tokens. -/
theorem textOf_splitAfter_bump {count : Nat} (ha : c.ahead = t :: rest) (hpos : 0 < count) :
    Token.textOf (c.splitAfter count).bump.ahead = t.text.drop count ++ Token.textOf rest := by
  rw [ahead_splitAfter_bump ha hpos]
  split
  · rfl
  · next hle =>
    rw [List.drop_eq_nil_of_le (Nat.le_of_not_lt hle), List.nil_append]

theorem nestingText_eq (c : Cursor σ) (opener closer : List Char) (hdepth : depth ≠ 0) :
    (c.nestingText opener closer depth).2 = c ∨
      ∃ count, (c.nestingText opener closer depth).2 = (c.splitAfter count).bump := by
  unfold nestingText
  split
  · exact .inr ⟨_, rfl⟩
  · rw [if_neg hdepth]
    split
    · dsimp only
      split
      · exact .inr ⟨_, rfl⟩
      · exact .inl rfl
    · exact .inr ⟨_, rfl⟩
  · refine .inr ⟨0, ?_⟩
    unfold splitAfter
    split <;> simp

theorem held_nestingText (opener closer : List Char) (hdepth : depth ≠ 0) (hh : c.held = []) :
    (c.nestingText opener closer depth).2.held = [] := by
  rcases nestingText_eq c opener closer hdepth with h | ⟨count, h⟩
  · rw [h, hh]
  · rw [h, held_bump_of_held ((held_splitAfter c count).trans hh)]

theorem context_nestingText (c : Cursor σ) (opener closer : List Char) (hdepth : depth ≠ 0) :
    (c.nestingText opener closer depth).2.context = c.context := by
  rcases nestingText_eq c opener closer hdepth with h | ⟨count, h⟩
  · rw [h]
  · rw [h, context_bump, (Adds.splitAfter c count).context]

/-- Where ordinary characters are split, they go on. -/
theorem plain_splitAfter_bump {text : List Char} {count : Nat}
    (ha : c.ahead = ⟨.text, text⟩ :: rest) (hpos : 0 < count) (hplain : Token.Plain c.ahead)
    (hall : Text.Ordinary text) :
    Token.Plain (c.splitAfter count).bump.ahead := by
  rw [ahead_splitAfter_bump ha hpos]
  rw [ha] at hplain
  cases hplain with
  | run hne _ hmore h =>
    split
    · next hlt =>
      exact .run (by simpa using hlt) (fun c hc => hall c (List.mem_of_mem_drop hc)) hmore h
    · exact h
  | other hne hnone _ h =>
    obtain ⟨c, text, rfl⟩ := List.exists_cons_of_ne_nil hne
    exact absurd (hall c (List.mem_cons_self ..)) (hnone c (List.mem_cons_self ..))

/-- A text token is scanned like its characters. -/
theorem nestingText_scans (hn : n.Plain) (hcase : c.context.caseSensitive = n.caseSensitive)
    (hplain : Token.Plain c.ahead) (hk : c.current = .text) (hdepth : depth ≠ 0) :
    n.Scans depth (c.nestingText n.opener.toList n.closer.toList depth).1 (Token.textOf c.ahead)
        (Token.textOf (c.nestingText n.opener.toList n.closer.toList depth).2.ahead) ∧
      Token.Plain (c.nestingText n.opener.toList n.closer.toList depth).2.ahead := by
  obtain ⟨t, rest, ha⟩ := List.exists_cons_of_ne_nil (ahead_ne_nil_of_nth hk (by decide))
  have hbump : c.bump.ahead = rest := by rw [ahead_bump, ha, List.tail_cons]
  have hsplit {count : Nat} (hpos : 0 < count) := textOf_splitAfter_bump ha hpos
  have hplain' := hplain
  unfold nestingText
  rw [currentText_cons ha, hcase]
  rw [ha] at hplain' ⊢
  cases hplain' with
  | @run text _ _ hall hmore h =>
    have hnext {count : Nat} (hpos : 0 < count) := plain_splitAfter_bump ha hpos hplain hall
    have hscan := @Nesting.scans_firstBound n depth text _ hn hmore hdepth
    have hat := sequenceAt_firstBound n.caseSensitive n.opener.toList n.closer.toList text
    generalize firstBound n.caseSensitive n.opener.toList n.closer.toList text = bound
      at hscan hat ⊢
    cases bound with
    | opener before =>
      dsimp only [Nesting.ScansTo] at hscan hat ⊢
      have hpos := (length_of_sequenceAt hat).1
      rw [hsplit (by omega)]
      exact ⟨hscan, hnext (by omega)⟩
    | closer before =>
      dsimp only [Nesting.ScansTo] at hscan hat ⊢
      have hpos := (length_of_sequenceAt hat).1
      rw [if_neg hdepth]
      split
      · next hlast =>
        rw [if_pos hlast] at hscan
        dsimp only
        split
        · next hbefore =>
          rw [hsplit hbefore]
          exact ⟨hscan, hnext hbefore⟩
        · next hbefore =>
          obtain rfl : before = 0 := by omega
          rw [ha]
          exact ⟨hscan, ha ▸ hplain⟩
      · next hlast =>
        rw [if_neg hlast] at hscan
        dsimp only
        rw [hsplit (by omega)]
        exact ⟨hscan, hnext (by omega)⟩
    | none =>
      dsimp only
      rw [hbump]
      exact ⟨hscan, h⟩
  | other _ hall _ h =>
    -- a hyphen or an asterisk, in which no sequence begins
    rw [Nesting.firstBound_other hn hall, hbump]
    exact ⟨.other hn hall hdepth, h⟩

/-- What is passed on the way to the next text token has no ordinary character. -/
theorem skipUntil_scans (code : EmbeddedCode σ) (hn : n.Plain) (hh : c.held = [])
    (hflag : c.context.ephemeralLineEnding = false) (hplain : Token.Plain c.ahead)
    (hdepth : depth ≠ 0) :
    ∃ d, c.skipUntil code (fun c => c.at? .text || c.at? .openAngle) = d ∧
      n.Scans depth depth (Token.textOf c.ahead) (Token.textOf d.ahead) ∧ Token.Plain d.ahead ∧
      d.held = [] ∧ d.context = c.context ∧ (d.ahead = [] ∨ d.current = .text) := by
  obtain ⟨used, rest, ha, hused, hrest⟩ := run_split (fun t => t.kind != .text) c.ahead
  rw [ha] at hplain
  have hmem {t : Token} (ht : t ∈ used) : t ∈ used ++ rest := List.mem_append_left _ ht
  have hkind {t : Token} (ht : t ∈ used) : t.kind ≠ .text := by simpa using hused t ht
  have hstop {t : Token} (ht : t ∈ rest.head?) : t.kind = .text := by simpa using hrest t ht
  have hpass (t : Token) (ht : t ∈ used) : (t.kind == .text || t.kind == .openAngle) = false ∧
      t.kind ≠ .transition ∧ t.kind ≠ .commentOpen := by
    obtain ⟨-, ⟨hangle, htransition, hcomment, -⟩, -⟩ := hplain.of_mem (hmem ht)
    exact ⟨by simp [hkind ht, hangle], htransition, hcomment⟩
  have htakes : Takes used (used.map .leaf) c
      (c.skipUntil code fun c => c.at? .text || c.at? .openAngle) :=
    Takes.skipUntil code (fun k => k == .text || k == .openAngle) hh hflag
      (fun t ht => (hplain.of_mem (hmem ht)).1) ha hpass fun t ht => by simp [hstop ht]
  refine ⟨_, rfl, ?_, ?_, htakes.held, htakes.context_eq, ?_⟩
  all_goals have hahead := htakes.ahead_eq ha
  · rw [hahead, ha, Token.textOf_append]
    refine .other hn (fun c hc => ?_) hdepth
    obtain ⟨t, ht, hct⟩ := List.mem_flatMap.mp hc
    exact (hplain.of_mem (hmem ht)).2.2 (hkind ht) c hct
  · rw [hahead]
    exact hplain.of_append
  · cases rest with
    | nil => exact .inl hahead
    | cons t rest => exact .inr ((current_cons hahead).trans (hstop rfl))

theorem nestingFrom_scans (code : EmbeddedCode σ) {bound : Nat} (hn : n.Plain) (hh : c.held = [])
    (hflag : c.context.ephemeralLineEnding = false)
    (hcase : c.context.caseSensitive = n.caseSensitive) (hplain : Token.Plain c.ahead)
    (hdepth : depth ≠ 0)
    (hfault : (nestingFrom code n.opener.toList n.closer.toList bound depth c).fault = none) :
    n.Scans depth 0 (Token.textOf c.ahead) (Token.textOf
      (nestingFrom code n.opener.toList n.closer.toList bound depth c).ahead) := by
  induction bound generalizing depth c with
  | zero => simp [nestingFrom, fail] at hfault
  | succ bound ih =>
    obtain ⟨d, hskip, hscan, hplain', hheld, hctx, hat⟩ :=
      skipUntil_scans code hn hh hflag hplain hdepth
    revert hfault
    unfold nestingFrom
    dsimp only
    rw [hskip]
    split
    · next hend =>
      have hnil : d.ahead = [] := List.isEmpty_iff.mp hend
      rw [hnil] at hscan ⊢
      exact fun _ => hscan.all
    · next hend =>
      -- there is no `<`, so the scan has stopped at a text
      have hk := hat.resolve_left (ahead_ne_nil_of_not_atEnd hend)
      rw [if_neg (by simp [at?, hk])]
      obtain ⟨htext, hplain''⟩ := nestingText_scans hn (by rw [hctx, hcase]) hplain' hk hdepth
      have hheld' := held_nestingText n.opener.toList n.closer.toList hdepth hheld
      have hctx' := context_nestingText d n.opener.toList n.closer.toList hdepth
      rw [hctx] at hctx'
      split
      · next hover =>
        rw [hover] at htext
        exact fun _ => hscan.trans hdepth htext
      · next hover =>
        intro hfault
        exact hscan.trans hdepth (htext.trans hover
          (ih hheld' (by rw [hctx', hflag]) (by rw [hctx', hcase]) hplain'' hover hfault))

/-! ## What is left behind the region -/

variable {opener closer : List Char} {code : EmbeddedCode σ} {k : Comparison}
  {ms : List (Marker × Marker)}

/-- The text that ends the region is split in front of the closing sequence. -/
theorem sequenceAt_nestingText (hne : c.ahead ≠ []) (hdepth : depth ≠ 0)
    (hover : (c.nestingText opener closer depth).1 = 0) :
    sequenceAt c.context.caseSensitive closer
      (Token.textOf (c.nestingText opener closer depth).2.ahead) = true := by
  obtain ⟨t, rest, ha⟩ := List.exists_cons_of_ne_nil hne
  have hat := sequenceAt_firstBound c.context.caseSensitive opener closer t.text
  revert hover
  unfold nestingText
  rw [currentText_cons ha]
  generalize firstBound c.context.caseSensitive opener closer t.text = bound at hat ⊢
  cases bound with
  | opener before => exact nofun
  | closer before =>
    dsimp only at hat ⊢
    rw [if_neg hdepth]
    split
    · intro _
      dsimp only
      split
      · next hbefore =>
        rw [textOf_splitAfter_bump ha hbefore]
        exact sequenceAt_append hat _
      · next hbefore =>
        obtain rfl : before = 0 := by omega
        rw [ha]
        exact sequenceAt_append hat _
    · next hlast =>
      intro hover
      dsimp only at hover
      omega
  | none => exact fun hover => absurd hover hdepth

/-- A region ends with the source or in front of the closing sequence. -/
theorem Parallel.sequenceAt_nestingFrom (ha : code.Agrees k) {bound : Nat} (hdepth : depth ≠ 0)
    (hfault : (Cursor.nestingFrom code opener closer bound depth c).fault = none)
    (h : Parallel k ms c c) : (Cursor.nestingFrom code opener closer bound depth c).ahead = [] ∨
      sequenceAt k.caseSensitive closer
        (Token.textOf (Cursor.nestingFrom code opener closer bound depth c).ahead) = true := by
  induction bound generalizing depth c with
  | zero => simp [Cursor.nestingFrom, fail] at hfault
  | succ bound ih =>
    have hs := h.skipUntil ha kindTest_nesting
    have hat := stop_skipUntil ha.lawful h.left kindTest_nesting
    revert hfault
    unfold Cursor.nestingFrom
    dsimp only
    generalize c.skipUntil code (fun c => c.at? .text || c.at? .openAngle) = d at hs hat ⊢
    split
    · next hend => exact fun _ => .inl (List.isEmpty_iff.mp hend)
    · next hend =>
      have hne := ahead_ne_nil_of_not_atEnd hend
      split
      · exact fun hfault => ih hdepth hfault ((hs.flush .literal).looseTag ha)
      · next hopen =>
        have htext : d.current = .text := by
          simpa [at?] using ((Bool.or_eq_true _ _).mp (hat.resolve_left hne)).resolve_right hopen
        split
        · next hover =>
          rw [← hs.caseSensitive]
          exact fun _ => .inr (sequenceAt_nestingText hne hdepth hover)
        · next hover =>
          exact fun hfault => ih hover hfault
            (hs.nestingText opener closer hdepth (by rw [htext]; decide)).2

end Cursor

/-! ## Parses of nested regions -/

open Cursor

variable {σ : Type}

section Parses

variable (options : Options) (host : σ) (nesting : Nesting) (source : String)

/-- The cursor at the beginning of a region. -/
def Nesting.regionStart : Cursor σ :=
  (ofSource source.toList { options, caseSensitive := nesting.caseSensitive } host).start.2.start.2

/-- The cursor at the end of a region that begins with the source. -/
def Nesting.regionEnd : Cursor σ :=
  let c := nesting.regionStart options host source
  nestingFrom .implicit nesting.opener.toList nesting.closer.toList (c.unclaimed + 1) 1 c

/-- A region is read side by side with itself. -/
theorem Nesting.parallel_regionStart : ∃ (k : Comparison) (ms : _),
    k.caseSensitive = nesting.caseSensitive ∧ Parallel k ms
      (nesting.regionStart options host source) (nesting.regionStart options host source) := by
  let k : Comparison := .folding id (fun _ => rfl) source.toList options false
    nesting.caseSensitive (fun h => absurd h Bool.false_ne_true) fun _ _ => rfl
  have hlex : k.Alikes (Token.lex source.toList) (Token.lex source.toList) :=
    Likeness.alikes_lex_self _
  have hroot := Comparison.parallel_ofSource rfl hlex host
  rw [Comparison.otherOptions_eq rfl] at hroot
  exact ⟨k, _, rfl, hroot.start⟩

theorem Nesting.reaches_regionEnd : Reaches False [.placeholder, .placeholder]
    (nesting.regionStart options host source) [] 0 (nesting.regionEnd options host source) [] :=
  (Reaches.refl (sound_ofSource False ..)).nestingFrom (lawful_implicit False fun _ => True) _ _
    (Nat.lt_succ_self _) Nat.one_ne_zero trivial

theorem Nesting.fault_regionEnd : (nesting.regionEnd options host source).fault = none :=
  (nesting.reaches_regionEnd options host source).sound.fault

theorem Nesting.held_regionEnd : (nesting.regionEnd options host source).held = [] := by
  obtain ⟨k, ms, -, hstart⟩ := nesting.parallel_regionStart options host source
  have hfault := nesting.fault_regionEnd options host source
  exact (hstart.nestingFrom (agrees_implicit _) _ _ Nat.one_ne_zero hfault hfault).none_held

/-- The region is the unit of the result, and what is behind it is the rest. -/
theorem parseNested_regionEnd : ∃ p, parseNested options .implicit host nesting source = .ok p ∧
    p.tree.Covers source.toList ∧
    p.unparsedText?.getD [] = Token.textOf (nesting.regionEnd options host source).ahead := by
  have hend := (nesting.reaches_regionEnd options host source).flush .literal
  have htext := hend.path.text_eq.trans ((text_congr (tokens_start _)).trans
    (text_congr (tokens_start _)))
  obtain ⟨p, hp, hcovers, -, hleft, -⟩ :=
    @run_result σ False _ (·.nestingContent .implicit nesting) rfl rfl hend.sound htext
  have hcontent : (nesting.regionStart options host source).nestingContent .implicit nesting =
      (nesting.regionEnd options host source).flush .literal := rfl
  rw [text_ofSource] at hcovers
  refine ⟨p, hp, hcovers, hleft.trans ?_⟩
  change Token.textOf (((nesting.regionStart options host source).nestingContent _ _).held.reverse ++
    ((nesting.regionStart options host source).nestingContent _ _).ahead) = _
  rw [hcontent, held_flush, ahead_flush, nesting.held_regionEnd]
  rfl

/-- In a source without tags and code the scan of the tokens is that of the characters. -/
theorem Nesting.scans_regionEnd (hn : nesting.Plain)
    (hsource : ∀ c ∈ source.toList, Token.Tagless c) :
    nesting.Scans 1 0 source.toList
      (Token.textOf (nesting.regionEnd options host source).ahead) := by
  have hahead : (nesting.regionStart options host source).ahead = Token.lex source.toList := by
    simp [regionStart, ofSource]
  have hctx : (nesting.regionStart options host source).context =
      { options, caseSensitive := nesting.caseSensitive } :=
    (context_flush _ _).trans (context_flush _ _)
  have hscan := nestingFrom_scans .implicit hn (held_start _) (by rw [hctx]) (by rw [hctx])
    (hahead ▸ Token.plain_lex hsource) Nat.one_ne_zero (nesting.fault_regionEnd options host source)
  rw [hahead, Token.textOf_lex] at hscan
  exact hscan

theorem Nesting.sequenceAt_regionEnd : (nesting.regionEnd options host source).ahead = [] ∨
    sequenceAt nesting.caseSensitive nesting.closer.toList
      (Token.textOf (nesting.regionEnd options host source).ahead) = true := by
  obtain ⟨k, ms, hcase, hstart⟩ := nesting.parallel_regionStart options host source
  rw [← hcase]
  exact hstart.sequenceAt_nestingFrom (agrees_implicit _) Nat.one_ne_zero
    (nesting.fault_regionEnd options host source)

end Parses

/-- A parse of a nested region has a result. In a source without tags and code it claims what one
scan over the characters claims, if the sequences are of ordinary characters. What it leaves, in any
source and for any sequences, begins with the closing one. -/
theorem parseNested_boundary (options : Options) (host : σ) (nesting : Nesting) (source : String) :
    ∃ p, parseNested options .implicit host nesting source = .ok p ∧
      ('<' ∉ source.toList → '@' ∉ source.toList → nesting.Plain →
        p.markupText? = some (nesting.claim 1 0 source.toList)) ∧
      ∀ rest ∈ p.unparsedText?,
        sequenceAt nesting.caseSensitive nesting.closer.toList rest = true := by
  obtain ⟨p, hp, hcovers, hrest⟩ := parseNested_regionEnd options host nesting source
  refine ⟨p, hp, fun hangle hat hplain => ?_, fun rest hunparsed => ?_⟩
  · have htagless : ∀ c ∈ source.toList, Token.Tagless c := fun c hc =>
      ⟨fun h => hangle (h ▸ hc), fun h => hat (h ▸ hc)⟩
    obtain ⟨markup, hmarkup, hsource⟩ := hcovers.markupText
    obtain ⟨used, hused, hclaim⟩ := nesting.scans_regionEnd options host source hplain htagless
    rw [hmarkup, hclaim, if_pos rfl, List.append_nil]
    rw [hrest] at hsource
    exact congrArg some (List.append_cancel_right (hsource.trans hused))
  · rw [hunparsed] at hrest
    rcases nesting.sequenceAt_regionEnd options host source with hend | hat
    · rw [hend] at hrest
      exact absurd hrest (hcovers.unparsedText_ne_nil hunparsed)
    · exact (congrArg (sequenceAt _ _) hrest).trans hat

/-- Regions in a region, in other letters and with one sequence right behind the other. -/
theorem parseNested_boundary_inner :
    let nesting : Nesting := ⟨"begin", "end", false⟩
    let source := "x-Begin y beginEnd\n END end? end rest end"
    '<' ∉ source.toList ∧ '@' ∉ source.toList ∧ nesting.Plain ∧
    ∃ p, parseNested {} .implicit () nesting source = .ok p ∧
      p.markupText? = some "x-Begin y beginEnd\n END ".toList ∧
      ∀ rest ∈ p.unparsedText?, sequenceAt false "end".toList rest = true := by
  have hangle : '<' ∉ "x-Begin y beginEnd\n END end? end rest end".toList := by decide
  have hat : '@' ∉ "x-Begin y beginEnd\n END end? end rest end".toList := by decide
  have hplain : Nesting.Plain ⟨"begin", "end", false⟩ := ⟨by decide, by decide⟩
  obtain ⟨p, hp, hmarkup, hrest⟩ := parseNested_boundary {} () ⟨"begin", "end", false⟩
    "x-Begin y beginEnd\n END end? end rest end"
  exact ⟨hangle, hat, hplain, p, hp, hmarkup hangle hat hplain, hrest⟩

end TemplateMarkup
