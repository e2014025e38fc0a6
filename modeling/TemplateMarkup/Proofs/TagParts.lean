import TemplateMarkup.Proofs.Tags
import TemplateMarkup.Proofs.Takes

/-! # Reading the parts of a well-formed tag

A tag is a `<`, a name, attributes and a `>`. For each part there is a lemma
that says what is taken when the part stands at the cursor, and the tag itself
is read by the lemmas for its parts, one after the other. -/

namespace TemplateMarkup.Cursor

/-- Tokens that make a tag's name, and what they become in the tree. -/
inductive Written : List Token → List Char → List Piece → Prop
  | plain {ts : List Token} : ts ≠ [] → (∀ t ∈ ts, t.kind = .text) →
      Written ts (Token.textOf ts) (ts.map .leaf)
  | escaped {t : Token} {ts : List Token} : t.kind = .bang → ts ≠ [] → (∀ u ∈ ts, u.kind = .text) →
      Text.sameIgnoringCase (Token.textAt ts 0) "DOCTYPE".toList = false →
      Written (t :: ts) ('!' :: Token.textOf ts) (.part .metacode [.leaf t] :: ts.map .leaf)

variable {σ : Type} {code : EmbeddedCode σ} {c d e : Cursor σ} {ts us used rest : List Token}
  {ps nps aps : List Piece} {name : List Char} {tags : OpenTags} {t lt gt slash : Token} {kind : Kind}

/-! ## Names -/

theorem nth_eq {n : Nat} (h : c.ahead.drop n = ts) : c.nth n = Token.kindAt ts 0 := by
  simp [nth, Token.kindAt, ← h]

theorem nthText_eq {n : Nat} (h : c.ahead.drop n = ts) : c.nthText n = Token.textAt ts 0 := by
  simp [nthText, Token.textAt, ← h]

theorem drop_succ {n : Nat} (h : c.ahead.drop n = t :: ts) : c.ahead.drop (n + 1) = ts := by
  rw [← List.tail_drop, h, List.tail_cons]

theorem textRunAt_eq {n : Nat} (h : c.ahead.drop n = ts ++ rest) (hts : ∀ t ∈ ts, t.kind = .text)
    (hstop : ∀ t ∈ rest.head?, t.kind ≠ .text) : c.textRunAt n = Token.textOf ts := by
  have hrest : rest.takeWhile (·.kind == .text) = [] := by
    cases rest with
    | nil => rfl
    | cons t rest => simp [hstop t rfl]
  rw [textRunAt, h, List.takeWhile_append_of_pos (by simpa using hts), hrest, List.append_nil]

theorem bangEscapeAt_of_text {n : Nat} (h : c.ahead.drop n = ts ++ rest) (hne : ts ≠ [])
    (hts : ∀ t ∈ ts, t.kind = .text) : c.bangEscapeAt n = false := by
  obtain ⟨t, ts, rfl⟩ := List.exists_cons_of_ne_nil hne
  have hk : c.nth n = .text := (nth_eq h).trans (hts t (List.mem_cons_self ..))
  simp [bangEscapeAt, hk]

theorem bangEscapeAt_of_escaped {n : Nat} (h : c.ahead.drop n = t :: us ++ rest)
    (ht : t.kind = .bang) (hne : us ≠ []) (hus : ∀ u ∈ us, u.kind = .text)
    (hdoctype : Text.sameIgnoringCase (Token.textAt us 0) "DOCTYPE".toList = false) :
    c.bangEscapeAt n = true := by
  obtain ⟨u, us, rfl⟩ := List.exists_cons_of_ne_nil hne
  have hk : c.nth n = .bang := (nth_eq h).trans ht
  have hnext : c.nth (n + 1) = .text :=
    (nth_eq (drop_succ h)).trans (hus u (List.mem_cons_self ..))
  have htext : c.nthText (n + 1) = u.text := nthText_eq (drop_succ h)
  have hu : Text.sameIgnoringCase u.text "DOCTYPE".toList = false := hdoctype
  rw [bangEscapeAt, hk, hnext, htext, hu]
  rfl

namespace Written

theorem tagNameAt_eq (hw : Written ts name nps) {n : Nat} (h : c.ahead.drop n = ts ++ rest)
    (hstop : ∀ t ∈ rest.head?, t.kind ≠ .text) : c.tagNameAt n = name := by
  cases hw with
  | plain hne hts =>
    rw [tagNameAt, bangEscapeAt_of_text h hne hts, if_neg Bool.false_ne_true]
    exact textRunAt_eq h hts hstop
  | escaped ht hne hus hdoctype =>
    rw [tagNameAt, bangEscapeAt_of_escaped h ht hne hus hdoctype, if_pos rfl]
    rw [textRunAt_eq (drop_succ h) hus hstop]

/-- The kind of a name's first token, with what the tag before it makes of it. -/
theorem begins (hw : Written ts name nps) {n : Nat} (h : c.ahead.drop n = ts ++ rest) :
    c.nth n = .text ∨ c.nth n = .bang ∧ c.bangEscapeAt n = true := by
  cases hw with
  | plain hne hts =>
    obtain ⟨t, ts, rfl⟩ := List.exists_cons_of_ne_nil hne
    exact .inl ((nth_eq h).trans (hts t (List.mem_cons_self ..)))
  | escaped ht hne hus hdoctype =>
    exact .inr ⟨(nth_eq h).trans ht, bangEscapeAt_of_escaped h ht hne hus hdoctype⟩

end Written

namespace Takes

/-- With everything before them flushed, tokens become a node. -/
theorem flush_bumpN (hh : c.held = []) (ha : c.ahead = used ++ rest) (hne : used ≠ [])
    (hk : kind ≠ .literal) : Takes used [.part kind (used.map .leaf)] c
      (((c.flush .literal).bumpN used.length).flush kind) := by
  have htake : (c.flush .literal).ahead.take used.length = used := by
    rw [ahead_flush, ha, List.take_left]
  have hnode := Adds.flush_bumpN (c := c.flush .literal) (n := used.length) (pending_flush c _)
    ((held_flush c _).trans hh) (by rwa [htake]) hk
  rw [htake] at hnode
  refine ⟨(Adds.flush_literal c).trans hnode, ?_, ?_, by simp⟩
  · rw [ahead_flush, ahead_bumpN, ahead_flush, ha, List.drop_left]
  · rw [held_flush]
    exact held_bumpN ((held_flush c _).trans hh) _

theorem eatName (hh : c.held = []) (ha : c.ahead = ts ++ rest) (hts : ∀ t ∈ ts, t.kind = .text)
    (hstop : ∀ t ∈ rest.head?, t.kind ≠ .text) : Takes ts (ts.map .leaf) c c.eatName :=
  bumpWhile hh ha (by simpa using hts) (by simpa using hstop)

theorem written (hw : Written ts name nps) (hh : c.held = []) (ha : c.ahead = ts ++ rest)
    (hstop : ∀ t ∈ rest.head?, t.kind ≠ .text) : Takes ts nps c c.bangEscape.eatName := by
  cases hw with
  | plain hne hts =>
    rw [bangEscape, bangEscapeAt_of_text (n := 0) ha hne hts, if_neg Bool.false_ne_true]
    exact eatName hh ha hts hstop
  | @escaped t us ht hne hus hdoctype =>
    rw [bangEscape, bangEscapeAt_of_escaped (n := 0) ha ht hne hus hdoctype, if_pos rfl]
    have hbang : Takes [t] [.part .metacode [.leaf t]] c
        ((c.flush .literal).bump.flush .metacode) :=
      flush_bumpN hh (show c.ahead = [t] ++ _ from ha) (List.cons_ne_nil _ _) (by decide)
    exact hbang.trans (eatName hbang.held (hbang.ahead_eq ha) hus hstop)

end Takes

/-! ## The ends of a tag -/

theorem closeAngle_of_ahead (ha : c.ahead = gt :: rest) (hgt : gt.kind = .closeAngle)
    (name : List Char) (range : Range) : c.closeAngle name range = (true, c.bump) := by
  have heat : c.eat .closeAngle = (true, c.bump) := by
    rw [eat, if_pos (by simp [at?, current_cons ha, hgt])]
  simp [closeAngle, heat]

theorem acceptUntil_of_ahead (ha : c.ahead = t :: rest) {kinds : List Kind} (hk : t.kind ∈ kinds) :
    c.acceptUntil kinds = c := by
  refine bumpWhile_of_head fun u hu => ?_
  rw [ha] at hu
  cases hu
  simp [hk]

/-- An end tag as a node of its own. -/
theorem Takes.endTagBlock (hw : Written ts name nps) (hh : c.held = [])
    (ha : c.ahead = lt :: slash :: ts ++ gt :: rest) (hgt : gt.kind = .closeAngle)
    (name' : List Char) : (c.endTagBlock name').1 = true ∧
      Takes (lt :: slash :: ts ++ [gt])
        [.part .tagBlock (.leaf lt :: .leaf slash :: nps ++ [.leaf gt])] c
        (c.endTagBlock name').2 := by
  have hopen : Takes [lt, slash] [.leaf lt, .leaf slash] c.start.2 (c.start.2.bumpN 2) :=
    bumpN ((held_start c).trans hh) (show c.start.2.ahead = [lt, slash] ++ _ from
      (ahead_start c).trans ha)
  have hstop : ∀ t ∈ (gt :: rest).head?, t.kind ≠ .text := by
    rintro t ⟨⟩
    rw [hgt]
    decide
  have hname := written hw hopen.held (hopen.ahead_eq ((ahead_start c).trans ha)) hstop
  have hahead := (hopen.trans hname).ahead_eq ((ahead_start c).trans ha)
  have hall := (hopen.trans hname).trans (bump hname.held hahead)
  rw [Cursor.endTagBlock]
  dsimp only
  rw [acceptUntil_of_ahead hahead (by simp [hgt]), closeAngle_of_ahead hahead hgt]
  exact ⟨rfl, hall.node _ (by decide)⟩

/-! ## Start tags -/

/-- The cursor is where the attributes of a start tag end. -/
def AtTagEnd (ts : List Token) : Prop :=
  Token.kindAt ts 0 = .closeAngle ∨ Token.kindAt ts 0 = .slash ∧ Token.kindAt ts 1 = .closeAngle

theorem attributesFrom_atTagEnd (h : AtTagEnd c.ahead) (bound : Nat) :
    attributesFrom code (bound + 1) c = ([], c) := by
  have hnone : c.bumpWhile (·.kind.isTrivia) = c := by
    refine bumpWhile_of_head fun t ht => ?_
    obtain ⟨rest, ha⟩ := List.head?_eq_some_iff.mp ht
    rw [ha] at h
    rcases h with h | ⟨h, -⟩ <;>
      · rw [show t.kind = _ from h]
        rfl
  rw [attributesFrom, hnone]
  rcases h with h | ⟨h, hnext⟩
  · rw [show c.current = .closeAngle from h]
  · rw [show c.current = .slash from h, if_pos (.inl hnext)]

theorem budget_pos (code : EmbeddedCode σ) (c : Cursor σ) : 0 < code.budget c :=
  Nat.mul_pos (Nat.succ_pos _) (Nat.succ_pos _)

theorem attributes_atTagEnd (h : AtTagEnd c.ahead) : c.attributes code = ([], c) := by
  obtain ⟨bound, hbound⟩ := Nat.exists_eq_add_of_lt (budget_pos code c)
  rw [attributes, hbound, Nat.zero_add]
  exact attributesFrom_atTagEnd h bound

/-- A tag that stays open behind its `>`. -/
theorem restOfStartTag_open (tags : OpenTags) (m : Marker) (start : Nat)
    (hattributes : Takes used aps c (c.attributes code).2)
    (ha : c.ahead = used ++ gt :: rest) (hgt : gt.kind = .closeAngle)
    (hvoid : c.context.options.isVoidElement name = false)
    (hscript : c.context.options.isScriptTag name = false) :
    c.restOfStartTag code tags m name start =
        ⟨(c.attributes code).2.bump.flush .literal, ⟨name, start, some m⟩ :: tags, true⟩ ∧
      Takes (used ++ [gt]) (aps ++ [.leaf gt]) c ((c.attributes code).2.bump.flush .literal) := by
  have hahead := hattributes.ahead_eq ha
  have hclose := (hattributes.trans (.bump hattributes.held hahead)).flush_literal
  have hat : (c.attributes code).2.at? .openAngle = false := by simp [at?, current_cons hahead, hgt]
  have heat : (c.attributes code).2.eat .slash = (false, (c.attributes code).2) :=
    eat_false hahead (by simp [Token.kindAt, hgt])
  refine ⟨?_, hclose⟩
  rw [restOfStartTag]
  dsimp only
  rw [hat, if_neg Bool.false_ne_true, heat, closeAngle_of_ahead hahead hgt]
  simp only [hclose.context_eq, hvoid, hscript]
  simp

/-- A tag that closes itself. -/
theorem restOfStartTag_selfClosed (tags : OpenTags) (m : Marker) (name : List Char) (start : Nat)
    (hattributes : Takes used aps c (c.attributes code).2)
    (ha : c.ahead = used ++ slash :: gt :: rest) (hslash : slash.kind = .slash)
    (hgt : gt.kind = .closeAngle) :
    ∃ d, c.restOfStartTag code tags m name start = ⟨d.complete m .tagBlock, tags, true⟩ ∧
      Takes (used ++ [slash, gt]) (aps ++ [.leaf slash, .leaf gt]) c d := by
  have hahead := hattributes.ahead_eq ha
  have hat : (c.attributes code).2.at? .openAngle = false := by simp [at?, current_cons hahead, hslash]
  obtain ⟨heat, hbump⟩ := Takes.eat_true hattributes.held hahead hslash
  have hnext := hbump.ahead_eq hahead
  have hclose := ((hattributes.trans hbump).trans (.bump hbump.held hnext)).flush_literal
  rw [List.append_assoc, List.append_assoc] at hclose
  refine ⟨_, ?_, hclose⟩
  rw [restOfStartTag]
  dsimp only
  rw [hat, if_neg Bool.false_ne_true, heat, closeAngle_of_ahead hnext hgt]
  simp

/-- A void tag in front of anything but its own end tag. -/
theorem restOfStartTag_void (tags : OpenTags) (m : Marker) (start : Nat)
    (hattributes : Takes used aps c (c.attributes code).2)
    (ha : c.ahead = used ++ gt :: rest) (hgt : gt.kind = .closeAngle)
    (hvoid : c.context.options.isVoidElement name = true)
    (hend : ∀ d : Cursor σ, d.ahead = rest → d.voidEndTag name = d) :
    ∃ d, c.restOfStartTag code tags m name start = ⟨d.complete m .tagBlock, tags, true⟩ ∧
      Takes (used ++ [gt]) (aps ++ [.leaf gt]) c d := by
  have hahead := hattributes.ahead_eq ha
  have hclose := (hattributes.trans (.bump hattributes.held hahead)).flush_literal
  have hat : (c.attributes code).2.at? .openAngle = false := by simp [at?, current_cons hahead, hgt]
  have heat : (c.attributes code).2.eat .slash = (false, (c.attributes code).2) :=
    eat_false hahead (by simp [Token.kindAt, hgt])
  refine ⟨_, ?_, hclose⟩
  rw [restOfStartTag]
  dsimp only
  rw [hat, if_neg Bool.false_ne_true, heat, closeAngle_of_ahead hahead hgt]
  have hfollow := hend _ (hclose.ahead_eq (by rw [ha]; simp))
  simp only [hclose.context_eq, hvoid, hfollow]
  simp

/-- A start tag up to its attributes. -/
theorem tag_start (code : EmbeddedCode σ) (tags : OpenTags) (hw : Written ts name nps)
    (hh : c.held = []) (ha : c.ahead = lt :: ts ++ rest)
    (hstop : ∀ t ∈ rest.head?, t.kind ≠ .text)
    (hplace : tags ≠ [] ∨ c.context.options.isTextTag name = false) :
    c.tag code tags =
        c.start.2.bump.bangEscape.eatName.restOfStartTag code tags c.start.1 name c.offset ∧
      Takes (lt :: ts) (.leaf lt :: nps) c.start.2 c.start.2.bump.bangEscape.eatName := by
  have hdrop : c.ahead.drop 1 = ts ++ rest := by rw [ha]; rfl
  have hname : c.tagNameAt 1 = name := hw.tagNameAt_eq hdrop hstop
  have hopen : Takes [lt] [.leaf lt] c.start.2 c.start.2.bump :=
    .bump ((held_start c).trans hh) ((ahead_start c).trans ha)
  have hall := hopen.trans (.written hw hopen.held (hopen.ahead_eq ((ahead_start c).trans ha)) hstop)
  have htag : c.tag code tags = c.startTag code tags := by
    rw [tag]
    rcases hw.begins hdrop with hk | ⟨hk, hbang⟩
    · simp [hk, atSpecialTag]
    · simp [hk, atSpecialTag, hbang]
  refine ⟨?_, hall⟩
  have htext : ¬ (tags.isEmpty = true ∧ c.context.options.isTextTag name = true) := by
    rintro ⟨hempty, htext⟩
    rcases hplace with hne | hne
    · exact hne (List.isEmpty_iff.mp hempty)
    · exact absurd htext (by simp [hne])
  rw [htag, startTag]
  dsimp only
  rw [hname, if_neg htext]

/-- What begins with a slash is read as an end tag, by its name. -/
theorem tag_end (code : EmbeddedCode σ) (tags : OpenTags) (hw : Written ts name nps)
    (ha : c.ahead = lt :: slash :: ts ++ rest) (hslash : slash.kind = .slash)
    (hstop : ∀ t ∈ rest.head?, t.kind ≠ .text) :
    c.tag code tags = c.endTag tags ∧ c.nth 2 ≠ .endOfInput ∧ c.tagNameAt 2 = name := by
  have hdrop : c.ahead.drop 2 = ts ++ rest := by rw [ha]; rfl
  have hnext : c.nth 1 = .slash := by simp [nth, ha, Token.kindAt, hslash]
  refine ⟨?_, ?_, hw.tagNameAt_eq hdrop hstop⟩
  · rw [tag, hnext, if_neg (by decide), if_neg (by simp [atSpecialTag, hnext]), if_pos rfl]
  · rcases hw.begins hdrop with hk | ⟨hk, -⟩ <;> rw [hk] <;> decide

/-- The end tag of the innermost open tag closes it. -/
theorem tag_matching (code : EmbeddedCode σ) (u : OpenTag) (tags : OpenTags) (hw : Written ts name nps)
    (hh : c.held = []) (ha : c.ahead = lt :: slash :: ts ++ gt :: rest) (hslash : slash.kind = .slash)
    (hgt : gt.kind = .closeAngle) (hsame : Text.sameIgnoringCase u.name name = true)
    (hplace : tags ≠ [] ∨ c.context.options.isTextTag name = false) :
    c.tag code (u :: tags) = ⟨u.close (c.endTagBlock name).2, tags, true⟩ := by
  have hstop : ∀ t ∈ (gt :: rest).head?, t.kind ≠ .text := by
    rintro t ⟨⟩
    rw [hgt]
    decide
  obtain ⟨htag, hend, hname⟩ := tag_end code (u :: tags) hw ha hslash hstop
  have htext : ¬ (tags.isEmpty = true ∧ c.context.options.isTextTag name = true) := by
    rintro ⟨hempty, htext⟩
    rcases hplace with hne | hne
    · exact hne (List.isEmpty_iff.mp hempty)
    · rw [hne] at htext
      cases htext
  rw [htag, endTag, if_neg hend, hname]
  dsimp only
  rw [OpenTags.removeMatching, if_pos hsame]
  dsimp only
  rw [if_neg htext, (Takes.endTagBlock hw hh ha hgt name).1]

/-! ## The walk over the tags -/

/-- The walk after a tag: it ends if no tag is open. -/
def resume (code : EmbeddedCode σ) (bound : Nat) (w : TagWalk σ) : TagWalk σ :=
  if w.openTags.isEmpty then w else tagsFrom code bound w

theorem resume_of_ne_nil (code : EmbeddedCode σ) (bound : Nat) {tags : OpenTags} (h : tags ≠ [])
    (c : Cursor σ) (complete : Bool) :
    resume code bound ⟨c, tags, complete⟩ = tagsFrom code bound ⟨c, tags, complete⟩ := by
  rw [resume, if_neg (by simpa using h)]

/-- The walk takes the text before a `<` and then the tag. -/
theorem tagsFrom_succ (code : EmbeddedCode σ) (tags : OpenTags) (hh : c.held = [])
    (hflag : c.context.ephemeralLineEnding = false) (hne : ∀ t ∈ used, t.text ≠ [])
    (hpass : ∀ t ∈ used, Passes .openAngle t) (ha : c.ahead = used ++ lt :: rest)
    (hlt : lt.kind = .openAngle) :
    ∃ d, Takes used (used.map .leaf) c d ∧ d.pending = [] ∧ ∀ bound complete,
      tagsFrom code (bound + 1) ⟨c, tags, complete⟩ = resume code bound (d.tag code tags) := by
  have hstop : ∀ t ∈ (lt :: rest).head?, t.kind = .openAngle := by
    rintro t ⟨⟩
    exact hlt
  have hskip := (Takes.skipTo code hh hflag hne ha hpass hstop).flush_literal
  have hend : ((c.skipTo code .openAngle).flush .literal).atEnd = false := by
    rw [atEnd, hskip.ahead_eq ha]
    rfl
  refine ⟨_, hskip, pending_flush _ _, fun bound complete => ?_⟩
  rw [tagsFrom]
  dsimp only
  rw [hend, if_neg Bool.false_ne_true, resume]

/-- With no text in between the walk goes on with the tag at once. -/
theorem tagsFrom_at (code : EmbeddedCode σ) (tags : OpenTags) (hh : c.held = [])
    (hflag : c.context.ephemeralLineEnding = false) (ha : c.ahead = lt :: rest)
    (hlt : lt.kind = .openAngle) :
    ∃ d, Takes [] [] c d ∧ d.pending = [] ∧ ∀ bound complete,
      tagsFrom code (bound + 1) ⟨c, tags, complete⟩ = resume code bound (d.tag code tags) := by
  have hline : c.ahead = [] ++ lt :: rest := ha
  exact tagsFrom_succ code tags hh hflag nofun nofun hline hlt

/-! ## Behind the last tag -/

theorem ahead_drain (tags : OpenTags) (c : Cursor σ) : (tags.drain c).2.ahead = c.ahead := by
  have hfold (tags : OpenTags) (c : Cursor σ) :
      (tags.foldl (fun c t => t.close c) c).ahead = c.ahead := by
    induction tags generalizing c with
    | nil => rfl
    | cons t tags ih => rw [List.foldl_cons, ih, ahead_close]
  cases tags with
  | nil => rfl
  | cons t tags => exact (hfold _ _).trans (ahead_closeUnended t c)

/-- Behind the last tag of a unit no spacing is claimed if there is none. -/
theorem endTags_eq {d : Cursor σ} {complete : Bool} (hw : Token.kindAt d.ahead 0 ≠ .whitespace)
    (hn : Token.kindAt d.ahead 0 ≠ .newline) :
    endTags ⟨d, tags, complete⟩ = (tags.drain d).2.flush .literal := by
  have hahead := ahead_drain tags d
  have hwhitespace : (tags.drain d).2.eat .whitespace = (false, (tags.drain d).2) :=
    eat_false hahead hw
  have hnewline : (tags.drain d).2.eat .newline = (false, (tags.drain d).2) := eat_false hahead hn
  rw [endTags]
  dsimp only
  rw [hwhitespace, hnewline, ite_self]

end TemplateMarkup.Cursor
