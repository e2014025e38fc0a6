import TemplateMarkup.Proofs.FreeScans
import TemplateMarkup.Proofs.Lexing
import TemplateMarkup.Proofs.Lossless
import TemplateMarkup.Proofs.Parallel.Sources
import TemplateMarkup.Proofs.Reporting
import TemplateMarkup.Proofs.TagOutcomes

/-! # Diagnostics point at their tags

A range begins where a text begins that the cursor has passed, and is as wide as a
text behind it, so it can be read off a decomposition of the source (`NameAt`).
The walk over the tags keeps that the names of the open tags stand in the source
where the tags say, and each report of a tag is about such a name or about the one
at the cursor. -/

namespace TemplateMarkup

/-! ## Ranges -/

/-- What stands in front of the name that a problem is about. -/
def Problem.lead : Problem → List Char
  | missingEndTag _ => ['<']
  | unexpectedEndTag _ => ['<', '/']
  | _ => []

/-- The range is that of a part of the source. If the problem is about a tag that has a name, the
part is the name, up to the case of letters. -/
def Diagnostic.Points (source : List Char) (d : Diagnostic) : Prop :=
  ∃ before inside after, source = before ++ (inside ++ after) ∧
    d.range = .ofText (Text.width before) inside ∧ d.problem.lead <:+ before ∧
    ∀ name, d.problem.name? = some name → name ≠ [] → Text.sameIgnoringCase inside name = true

/-- At an offset the source has a lead and behind it a name. -/
def NameAt (source lead name : List Char) (start : Nat) : Prop :=
  ∃ before after, source = before ++ (lead ++ (name ++ after)) ∧ Text.width before = start

/-- A report about the name that stands there. -/
theorem NameAt.points {source lead name : List Char} {start : Nat} {problem : Problem}
    (h : NameAt source lead name start) (hlead : problem.lead <:+ lead)
    (hname : ∀ other, problem.name? = some other → Text.sameIgnoringCase name other = true) :
    Diagnostic.Points source ⟨problem, .ofText (start + Text.width lead) name⟩ := by
  obtain ⟨before, after, hsource, rfl⟩ := h
  refine ⟨before ++ lead, name, after, by rw [hsource, List.append_assoc], ?_, ?_,
    fun other hother _ => hname other hother⟩
  · rw [Text.width_append]
  · exact hlead.trans (List.suffix_append before lead)

theorem Text.sameIgnoringCase_refl (name : List Char) : sameIgnoringCase name name = true :=
  sameIgnoringCase_iff.mpr rfl

/-- The names of the open tags stand where the tags say. -/
def OpenTags.Stand (source : List Char) (tags : OpenTags) : Prop :=
  ∀ t ∈ tags, NameAt source ['<'] t.name t.start

/-! ## Tokens of one character -/

/-- The characters of a token that names and their places depend on. -/
structure Token.Exact (t : Token) : Prop where
  openAngle : t.kind = .openAngle → t.text = ['<']
  slash : t.kind = .slash → t.text = ['/']
  bang : t.kind = .bang → t.text = ['!']
  narrow : t.kind ≠ .text → ∀ c ∈ t.text, c.utf8Size = 1

namespace Token

/-- A token of one character has no two parts. -/
theorem divisible_exact : Divisible Exact := by
  intro kind a b ha hb h
  have hlong (c : Char) : a ++ b ≠ [c] := by
    intro he
    have hlen := congrArg List.length he
    have := List.length_pos_iff.mpr ha
    have := List.length_pos_iff.mpr hb
    simp only [List.length_append, List.length_singleton] at hlen
    omega
  exact
    ⟨⟨fun hk => absurd (h.openAngle hk) (hlong _), fun hk => absurd (h.slash hk) (hlong _),
      fun hk => absurd (h.bang hk) (hlong _), fun hk c hc => h.narrow hk c (List.mem_append_left _ hc)⟩,
    ⟨fun hk => absurd (h.openAngle hk) (hlong _), fun hk => absurd (h.slash hk) (hlong _),
      fun hk => absurd (h.bang hk) (hlong _), fun hk c hc => h.narrow hk c (List.mem_append_right _ hc)⟩⟩

/-- What a token looks like as it grows. -/
structure Growing (form : Form) (read : List Char) : Prop where
  openAngle : form.kind = .openAngle → read = ['<']
  slash : form.kind = .slash → read = ['/']
  bang : form.kind = .bang → read = ['!']
  narrow : form ≠ .run → ∀ c ∈ read, c.utf8Size = 1

theorem growing_ofChar (c : Char) : Growing (.ofChar c) [c] where
  openAngle h := by rw [eq_of_kind_ofChar h]
  slash h := by rw [Form.eq_slash_of_kind h]
  bang h := by
    revert h
    unfold Form.ofChar
    split <;> simp [Form.kind]
  narrow h d hd := by
    rw [List.mem_singleton.mp hd]
    revert h
    unfold Form.ofChar
    split <;> first | exact fun _ => rfl | exact fun h => absurd rfl h

/-- A token of more than one character has one of the other kinds. -/
theorem Growing.extend {form longer : Form} {read : List Char} {c : Char} (h : Growing form read)
    (he : form.extend? c = some longer) : Growing longer (read ++ [c]) := by
  have hnarrow (hc : c.utf8Size = 1) (hform : form ≠ .run) : ∀ d ∈ read ++ [c], d.utf8Size = 1 := by
    intro d hd
    rcases List.mem_append.mp hd with hd | hd
    · exact h.narrow hform d hd
    · rwa [List.mem_singleton.mp hd]
  cases form with
  | whole kind => cases he
  | blanks =>
    unfold Form.extend? at he
    dsimp only at he
    split at he
    · next hc =>
      cases he
      have hsize := (growing_ofChar c).narrow (by rw [hc]; nofun) c (List.mem_singleton_self c)
      exact ⟨nofun, nofun, nofun, fun _ => hnarrow hsize nofun⟩
    · cases he
  | run =>
    unfold Form.extend? at he
    dsimp only at he
    split at he
    · cases he
      exact ⟨nofun, nofun, nofun, fun hrun => absurd rfl hrun⟩
    · cases he
  | carriageReturn | hyphen | asterisk | atSign =>
    unfold Form.extend? at he
    dsimp only at he
    split at he
    · next hc =>
      cases he
      exact ⟨nofun, nofun, nofun, fun _ => hnarrow (by rw [hc]; rfl) nofun⟩
    · cases he

theorem exact_of_mem_lex {source : List Char} {t : Token} (h : t ∈ lex source) : t.Exact := by
  obtain ⟨form, hkind, hform⟩ := exists_form_of_mem_lex growing_ofChar Growing.extend h
  refine ⟨fun hk => ?_, fun hk => ?_, fun hk => ?_, fun hk => ?_⟩
  · exact hform.openAngle (hkind ▸ hk)
  · exact hform.slash (hkind ▸ hk)
  · exact hform.bang (hkind ▸ hk)
  · refine hform.narrow ?_
    rintro rfl
    exact hk hkind

end Token

namespace Cursor

variable {σ : Type} {code : EmbeddedCode σ} {source name : List Char} {c d e c₀ : Cursor σ}
  {ms ms₀ : List Marker} {base : List Event} {gain : Nat} {tags : OpenTags} {strict : Prop}
  {ns : List Marker}

/-! ## Names at the cursor -/

/-- The cursor holds the source in tokens as they are written. -/
structure Spells (source : List Char) (c : Cursor σ) : Prop where
  text : c.text = source
  letters : ∀ t ∈ c.tokens, t.Exact

theorem Spells.path (h : Spells source c) (p : Path strict c ms d ns) : Spells source d :=
  ⟨p.text_eq.trans h.text, p.forall_tokens Token.divisible_exact h.letters⟩

theorem Spells.same (h : Spells source c) (htokens : d.tokens = c.tokens) : Spells source d :=
  ⟨(text_congr htokens).trans h.text, by rw [htokens]; exact h.letters⟩

/-- The source is what the cursor has passed and what lies ahead. -/
theorem Spells.source_eq (h : Spells source c) : ∃ before, source = before ++ Token.textOf c.ahead ∧
    Text.width before = c.offset := by
  refine ⟨Token.textOf (c.flushed.reverse ++ c.pending.reverse ++ c.held.reverse), ?_, ?_⟩
  · rw [← h.text, Cursor.text, Cursor.tokens, Token.textOf_append]
  · rw [← Token.widthOf_eq]
    simp only [Token.widthOf_append, Token.widthOf_reverse, offset, nthStart, List.take_zero,
      Token.widthOf, Nat.add_zero]

theorem textRunAt_prefix (c : Cursor σ) (n : Nat) :
    c.textRunAt n <+: Token.textOf (c.ahead.drop n) := by
  refine ⟨Token.textOf ((c.ahead.drop n).dropWhile (·.kind == .text)), ?_⟩
  rw [textRunAt, ← Token.textOf_append, List.takeWhile_append_dropWhile]

/-- A tag's name is what the source has there. -/
theorem Spells.tagName_prefix (h : Spells source c) (n : Nat) :
    c.tagNameAt n <+: Token.textOf (c.ahead.drop n) := by
  unfold tagNameAt
  split
  · next hbang =>
    have hk : c.nth n = .bang := by
      simp only [bangEscapeAt, Bool.and_eq_true, beq_iff_eq] at hbang
      exact hbang.1.1
    have hlt : n < c.ahead.length := lt_length_of_nth (by rw [hk]; decide)
    have hkind : c.ahead[n].kind = .bang := by simpa [nth, Token.kindAt, hlt] using hk
    have htext := (h.letters c.ahead[n] (by simp [tokens])).bang hkind
    rw [List.drop_eq_getElem_cons hlt, Token.textOf_cons, htext]
    exact List.cons_prefix_cons.mpr ⟨rfl, textRunAt_prefix c (n + 1)⟩
  · exact textRunAt_prefix c n

/-- Behind the next tokens stands the name of a tag. -/
theorem Spells.nameAt (h : Spells source c) (ts : List Token) {rest : List Token}
    (ha : c.ahead = ts ++ rest) :
    NameAt source (Token.textOf ts) (c.tagNameAt ts.length) c.offset := by
  obtain ⟨before, hsource, hwidth⟩ := h.source_eq
  obtain ⟨after, hafter⟩ := h.tagName_prefix ts.length
  rw [ha, List.drop_left] at hafter
  refine ⟨before, after, ?_, hwidth⟩
  rw [hsource, ha, Token.textOf_append, hafter]

theorem Spells.openAngle (h : Spells source c) {t : Token} {rest : List Token}
    (ha : c.ahead = t :: rest) (hk : c.current = .openAngle) : t.text = ['<'] := by
  rw [current_cons ha] at hk
  exact (h.letters t (by simp [tokens, ha])).openAngle hk

theorem Spells.startTag_name (h : Spells source c) (hk : c.current = .openAngle) :
    NameAt source ['<'] (c.tagNameAt 1) c.offset := by
  obtain ⟨t, rest, ha⟩ := List.exists_cons_of_ne_nil (ahead_ne_nil_of_nth hk (by decide))
  have hname := h.nameAt [t] ha
  rwa [Token.textOf_cons, Token.textOf_nil, h.openAngle ha hk] at hname

theorem Spells.endTag_name (h : Spells source c) (hk : c.current = .openAngle)
    (hs : c.nth 1 = .slash) : NameAt source ['<', '/'] (c.tagNameAt 2) c.offset := by
  obtain ⟨t, rest, ha⟩ := List.exists_cons_of_ne_nil (ahead_ne_nil_of_nth hk (by decide))
  obtain ⟨u, rest', rfl⟩ : ∃ u rest', rest = u :: rest' := by
    refine List.exists_cons_of_ne_nil ?_
    rintro rfl
    simp [nth, Token.kindAt, ha] at hs
  have hu : u.kind = .slash := by simpa [nth, Token.kindAt, ha] using hs
  have hname := h.nameAt [t, u] ha
  rwa [Token.textOf_cons, Token.textOf_cons, Token.textOf_nil, h.openAngle ha hk,
    (h.letters u (by simp [tokens, ha])).slash hu] at hname

/-! ## Reports -/

/-- What is reported from one cursor to the other points at the source. -/
def Tells (source : List Char) (c d : Cursor σ) : Prop :=
  ∀ x ∈ d.diagnostics.toList, x ∈ c.diagnostics.toList ∨ x.Points source

namespace Tells

theorem same (h : d.diagnostics = c.diagnostics) : Tells source c d := by
  intro x hx
  rw [h] at hx
  exact .inl hx

theorem refl (c : Cursor σ) : Tells source c c := same rfl

theorem trans (h : Tells source c d) (h' : Tells source d e) : Tells source c e := by
  intro x hx
  rcases h' x hx with hx | hx
  · exact h x hx
  · exact .inr hx

/-- Nothing is reported in between. -/
theorem quiet (h : Tells source c d) (he : e.diagnostics = d.diagnostics) : Tells source c e :=
  h.trans (same he)

theorem report {problem : Problem} {range : Range}
    (hpoints : Diagnostic.Points source ⟨problem, range⟩) :
    Tells source c (c.report problem range) := by
  intro x hx
  rw [diagnostics_report, Array.toList_push, List.mem_append, List.mem_singleton] at hx
  rcases hx with hx | rfl
  · exact .inl hx
  · exact .inr hpoints

theorem textTag {range : Range} {e : Cursor σ} (h : Tells source c d)
    (hpoints : Diagnostic.Points source ⟨.textTagHasAttributes, range⟩)
    (hends : TextTagEnds range d e) : Tells source c e := by
  cases hends with
  | closed => exact h.quiet (diagnostics_bumpN ..)
  | reported => exact (h.trans (.report hpoints)).quiet (diagnostics_recoverTextTag _)

end Tells

theorem tells_closeAngle {range : Range}
    (hpoints : Diagnostic.Points source ⟨.unfinishedTag name, range⟩) :
    Tells source c (c.closeAngle name range).2 := by
  unfold closeAngle
  dsimp only
  split
  · exact .same (diagnostics_eat c _)
  · exact (Tells.same (diagnostics_eat c _)).trans
      ((Tells.report hpoints).quiet (diagnostics_missing _ _))

theorem tells_closeUnended {t : OpenTag} (h : NameAt source ['<'] t.name t.start) :
    Tells source c (t.closeUnended c) := by
  have hpoints : Diagnostic.Points source ⟨.missingEndTag t.name, t.nameRange⟩ := by
    refine h.points (List.suffix_refl _) fun other hother => ?_
    cases hother
    exact Text.sameIgnoringCase_refl _
  exact (Tells.report hpoints).quiet (diagnostics_close t _)

theorem tells_removeMatching (hend : NameAt source ['<', '/'] name c₀.offset)
    (htags : tags.Stand source) :
    Tells source c (OpenTags.removeMatching name c₀.offset tags c).2.2 := by
  induction tags generalizing c with
  | nil =>
    refine .report (hend.points (List.suffix_refl _) fun other hother => ?_)
    cases hother
    exact Text.sameIgnoringCase_refl _
  | cons t rest ih =>
    obtain ⟨hname, hrest⟩ := List.forall_mem_cons.mp htags
    unfold OpenTags.removeMatching
    split
    · exact .refl c
    · dsimp only
      split
      · exact tells_closeUnended hname
      · exact (tells_closeUnended hname).trans (ih hrest)

theorem tells_drain (htags : tags.Stand source) : Tells source c (tags.drain c).2 := by
  cases tags with
  | nil => exact .refl c
  | cons t rest =>
    exact (tells_closeUnended (htags t (List.mem_cons_self ..))).quiet (diagnostics_foldl_close ..)

/-! ## Tags -/

theorem tells_endTagBlock (h : NameAt source ['<', '/'] name c.offset) :
    Tells source c (c.endTagBlock name).2 := by
  have hpoints : Diagnostic.Points source ⟨.unfinishedTag name, .ofText (c.offset + 2) name⟩ := by
    refine h.points (List.nil_suffix) fun other hother => ?_
    cases hother
    exact Text.sameIgnoringCase_refl _
  unfold endTagBlock
  dsimp only
  refine Tells.quiet ((Tells.same ?_).trans (tells_closeAngle hpoints)) (diagnostics_complete ..)
  simp

theorem tells_textEndTag (h : NameAt source ['<', '/'] name c.offset) :
    Tells source c (c.textEndTag name) := by
  have hpoints : Diagnostic.Points source ⟨.textTagHasAttributes, .ofText (c.offset + 2) name⟩ :=
    h.points (List.nil_suffix) nofun
  have hread : ((c.bumpN 2).eatName.eat .closeAngle).2.diagnostics = c.diagnostics := by simp
  unfold textEndTag
  dsimp only
  split
  · exact .same ((diagnostics_flush ..).trans hread)
  · refine ((Tells.same hread).trans (Tells.report hpoints)).quiet ?_
    rw [diagnostics_flush, diagnostics_recoverTextTag]

theorem tells_textStartTag (h : NameAt source ['<'] name c.offset) (htags : tags.Stand source) :
    Tells source c (c.textStartTag tags name).cursor ∧
      (c.textStartTag tags name).openTags.Stand source := by
  have hpoints : Diagnostic.Points source ⟨.textTagHasAttributes, .ofText (c.offset + 1) name⟩ :=
    h.points (List.nil_suffix) nofun
  have hname : c.bump.eatName.diagnostics = c.diagnostics := by simp
  have hends := textStartTag_ends tags name c
  generalize c.textStartTag tags name = w at hends ⊢
  cases hends with
  | selfClosing _ hread =>
    exact ⟨((Tells.same ((diagnostics_bumpN ..).trans hname)).textTag hpoints hread).quiet
      (diagnostics_flush ..), htags⟩
  | opened _ hread =>
    exact ⟨((Tells.same hname).textTag hpoints hread).quiet (diagnostics_flush ..),
      List.forall_mem_cons.mpr ⟨h, htags⟩⟩

/-- The end tag of a script has the name of its start tag, up to case. -/
theorem tells_scriptBodyFrom (hm : code.Mute) (hl : code.Lawful strict fun _ => True)
    (name : List Char) (bound : Nat) (h : Spells source c) (hs : Sound strict base ms c) :
    Tells source c (scriptBodyFrom code name bound c) := by
  induction bound generalizing c with
  | zero => exact .refl c
  | succ bound ih =>
    have hreach := (Reaches.refl hs).skipTo hl.toStepwise .openAngle trivial
    have hskip : Tells source c (c.skipTo code .openAngle) := .same (diagnostics_skipTo hm c _)
    have hat := at_skipTo hl hs .openAngle
    have hspells := h.path hreach.path
    have hsound := hreach.sound
    unfold scriptBodyFrom
    dsimp only
    generalize c.skipTo code .openAngle = d at hskip hat hspells hsound ⊢
    split
    · exact hskip
    · next hend =>
      have hk : d.current = .openAngle := hat.resolve_left (ahead_ne_nil_of_not_atEnd hend)
      split
      · next hclose =>
        have hname := hspells.endTag_name hk hclose.1
        have hrange : Range.ofText (d.offset + 2) name =
            .ofText (d.offset + Text.width ['<', '/']) (d.tagNameAt 2) := by
          rw [Range.ofText, Range.ofText, Text.width_of_sameIgnoringCase hclose.2]
          rfl
        have hpoints : Diagnostic.Points source
            ⟨.unfinishedTag name, .ofText (d.offset + 2) name⟩ := by
          rw [hrange]
          refine hname.points (List.nil_suffix) fun other hother => ?_
          cases hother
          exact hclose.2
        refine (hskip.trans (.trans (.same ?_) (tells_closeAngle hpoints))).quiet
          (diagnostics_complete ..)
        rw [diagnostics_skipTo hm]
        simp
      · have hbump := (Reaches.refl hsound).bump
        exact hskip.trans ((Tells.same (diagnostics_bump d)).trans
          (ih (hspells.path hbump.path) hbump.sound))

theorem tells_scriptBody (hm : code.Mute) (hl : code.Lawful strict fun _ => True)
    (name : List Char) (h : Spells source c) (hs : Sound strict base ms c) :
    Tells source c (c.scriptBody code name) := tells_scriptBodyFrom hm hl name _ h hs

/-- No name is read where a token of another kind than text comes next. -/
theorem Sound.kind_of_tagName (hs : Sound strict base ms c) {n : Nat} {t : Token}
    (ht : c.ahead[n]? = some t) (hname : c.tagNameAt n = []) : t.kind ≠ .text := by
  intro hk
  have hrun : c.textRunAt n = [] := by
    unfold tagNameAt at hname
    split at hname
    · cases hname
    · exact hname
  have hmem : t ∈ c.ahead := List.mem_of_getElem? ht
  obtain ⟨hlt, rfl⟩ := List.getElem?_eq_some_iff.mp ht
  rw [textRunAt, List.drop_eq_getElem_cons hlt, List.takeWhile_cons, if_pos (by simp [hk]),
    Token.textOf_cons, List.append_eq_nil_iff] at hrun
  exact hs.nonempty _ (by simp [tokens, hmem]) hrun.1

/-- Of a tag without a name the character behind the `<` is reported, which is one byte wide. -/
theorem Spells.startTag_points (h : Spells source c) (hs : Sound strict base ms c)
    (hk : c.current = .openAngle) (hnext : c.nth 1 ≠ .endOfInput) : Diagnostic.Points source
      ⟨.unfinishedTag (c.tagNameAt 1),
        ⟨c.offset + 1, c.offset + 1 + max (Text.width (c.tagNameAt 1)) 1⟩⟩ := by
  by_cases hname : c.tagNameAt 1 = []
  · obtain ⟨t, rest, ha⟩ := List.exists_cons_of_ne_nil (ahead_ne_nil_of_nth hk (by decide))
    obtain ⟨u, rest', rfl⟩ : ∃ u rest', rest = u :: rest' := by
      refine List.exists_cons_of_ne_nil ?_
      rintro rfl
      simp [nth, Token.kindAt, ha] at hnext
    have hu : u ∈ c.tokens := by simp [tokens, ha]
    obtain ⟨ch, chars, htext⟩ := List.exists_cons_of_ne_nil (hs.nonempty u hu)
    have hsize : ch.utf8Size = 1 :=
      (h.letters u hu).narrow (hs.kind_of_tagName (by rw [ha]; rfl) hname) ch (by simp [htext])
    obtain ⟨before, hsource, hwidth⟩ := h.source_eq
    refine ⟨before ++ ['<'], [ch], chars ++ Token.textOf rest', ?_, ?_, List.nil_suffix,
      fun other hother hne => ?_⟩
    · rw [hsource, ha, Token.textOf_cons, Token.textOf_cons, h.openAngle ha hk, htext]
      simp
    · have hlead : Text.width (before ++ ['<']) = c.offset + 1 := by
        rw [Text.width_append, hwidth]
        rfl
      have hone : Text.width [ch] = 1 := hsize
      rw [hname, hlead, Range.ofText, hone]
      rfl
    · cases hother
      exact absurd hname hne
  · have hwidth : 1 ≤ Text.width (c.tagNameAt 1) :=
      Nat.le_trans (List.length_pos_iff.mpr hname) (Text.length_le_width _)
    rw [Nat.max_eq_left hwidth]
    refine (h.startTag_name hk).points (List.nil_suffix) fun other hother => ?_
    cases hother
    exact Text.sameIgnoringCase_refl _

/-- What a walk over tags keeps. -/
structure TellsWalk (source : List Char) (c : Cursor σ) (w : TagWalk σ) : Prop where
  tells : Tells source c w.cursor
  names : w.openTags.Stand source

theorem Tells.walk (h : Tells source c d) (hnames : tags.Stand source) (complete : Bool) :
    TellsWalk source c ⟨d, tags, complete⟩ := ⟨h, hnames⟩

theorem tells_restOfStartTag (hm : code.Mute) (hl : code.Lawful False fun _ => True) {m : Marker}
    {start : Nat} (hunfinished : Diagnostic.Points source
      ⟨.unfinishedTag name, ⟨start + 1, start + 1 + max (Text.width name) 1⟩⟩)
    (hname : NameAt source ['<'] name start) (htags : tags.Stand source) (hspells : Spells source c)
    (hheld : c.held = []) (hs : Sound False base (m :: (tags.markers ++ ms)) c) :
    TellsWalk source c (c.restOfStartTag code tags m name start) := by
  have hread := (Reaches.refl hs).attributes hl hheld trivial
  have hattributes : Tells source c (c.attributes code).2 := .same (diagnostics_attributes hm c)
  have hclose : Tells source c (c.throughHead code name start).2 :=
    (hattributes.quiet (diagnostics_eat (c.attributes code).2 .slash)).trans
      (tells_closeAngle hunfinished)
  have hflush : Tells source c (c.behindHead code name start) :=
    hclose.quiet (diagnostics_flush _ .literal)
  have hends := restOfStartTag_ends code tags m name start c
  generalize c.restOfStartTag code tags m name start = w at hends ⊢
  cases hends with
  | cutOff => exact (hattributes.quiet (diagnostics_complete ..)).walk htags _
  | unclosed => exact (hclose.quiet (diagnostics_complete ..)).walk htags _
  | selfClosing => exact (hflush.quiet (diagnostics_complete ..)).walk htags _
  | void =>
    exact (hflush.quiet (by rw [diagnostics_complete, diagnostics_voidEndTag])).walk htags _
  | script =>
    have hrange : (⟨start + 1, start + 1 + max (Text.width name) 1⟩ : Range).start ≤
        start + 1 + max (Text.width name) 1 := Nat.le_add_right _ _
    have hreach : Reaches False base c (m :: (tags.markers ++ ms)) 0 (c.behindHead code name start)
        (m :: (tags.markers ++ ms)) :=
      ((hread.eat .slash).closeAngle name hrange False.elim).flush .literal
    have hbody := tells_scriptBody hm hl name (hspells.path hreach.path) hreach.sound
    exact ((hflush.trans hbody).quiet (diagnostics_complete ..)).walk htags _
  | opened => exact hflush.walk (List.forall_mem_cons.mpr ⟨hname, htags⟩) _

theorem tells_startTag (hm : code.Mute) (hl : code.Lawful False fun _ => True)
    (htags : tags.Stand source) (hspells : Spells source c)
    (hs : Sound False base (tags.markers ++ ms) c) (hk : c.current = .openAngle)
    (hnext : c.nth 1 ≠ .endOfInput) : TellsWalk source c (c.startTag code tags) := by
  have hname := hspells.startTag_name hk
  unfold startTag
  dsimp only
  split
  · obtain ⟨htells, hstand⟩ := tells_textStartTag hname htags
    exact ⟨htells, hstand⟩
  · have hne : c.start.2.ahead ≠ [] := by
      rw [ahead_start]
      exact ahead_ne_nil_of_nth hk (by decide)
    have hopen := (Reaches.refl hs).start.bump.bangEscape.eatName
    have hheld : c.start.2.bump.bangEscape.eatName.held = [] :=
      held_eatName (held_bangEscape (held_bump_of_ne_nil hne))
    have hquiet : c.start.2.bump.bangEscape.eatName.diagnostics = c.diagnostics := by simp
    have hrest := tells_restOfStartTag hm hl (hspells.startTag_points hs hk hnext) hname htags
      (hspells.path hopen.path) hheld hopen.sound
    exact ⟨(Tells.same hquiet).trans hrest.tells, hrest.names⟩

theorem tells_endTag (htags : tags.Stand source) (hspells : Spells source c)
    (hk : c.current = .openAngle) (hslash : c.nth 1 = .slash) :
    TellsWalk source c (c.endTag tags) := by
  have hname := hspells.endTag_name hk hslash
  have htells := tells_removeMatching (c := c) hname htags
  have htokens := tokens_removeMatching (c.tagNameAt 2) c.offset tags c
  have hahead := ahead_removeMatching (c.tagNameAt 2) c.offset tags c
  have hrest : (OpenTags.removeMatching (c.tagNameAt 2) c.offset tags c).2.1.Stand source :=
    fun t ht => htags t (mem_removeMatching ht)
  have hat {e : Cursor σ} (htext : e.tokens = c.tokens) (ha : e.ahead = c.ahead) :
      NameAt source ['<', '/'] (c.tagNameAt 2) e.offset := by
    rwa [offset_congr (text_congr htext) ha]
  have hblock := htells.trans (tells_endTagBlock (hat htokens hahead))
  have hends := endTag_ends tags c
  generalize c.endTag tags = w at hends ⊢
  cases hends with
  | bare => exact ⟨.same (by simp), htags⟩
  | unmatched _ hr =>
    rw [hr] at hblock hrest
    exact hblock.walk hrest _
  | @text t d _ hr =>
    rw [hr] at htells htokens hahead hrest
    have hclosed := htells.quiet (diagnostics_close t d)
    exact (hclosed.trans (tells_textEndTag (hat ((tokens_close t d).trans htokens)
      ((ahead_close t d).trans hahead)))).walk hrest _
  | @element t rest d _ hr =>
    rw [hr] at hblock hrest
    exact (hblock.quiet (diagnostics_close t _)).walk hrest _

theorem Spells.offset_points (h : Spells source c) {problem : Problem} (hlead : problem.lead = [])
    (hname : problem.name? = none) :
    Diagnostic.Points source ⟨problem, ⟨c.offset, c.offset⟩⟩ := by
  obtain ⟨before, hsource, hwidth⟩ := h.source_eq
  refine ⟨before, [], Token.textOf c.ahead, hsource, ?_, hlead ▸ List.nil_suffix, ?_⟩
  · rw [hwidth]
    rfl
  · rw [hname]
    exact nofun

theorem tells_loneAngle (htags : tags.Stand source) (hspells : Spells source c) :
    TellsWalk source c (c.loneAngle tags) := by
  have hread : c.start.2.bump.diagnostics = c.diagnostics := by simp
  have hbehind : Spells source c.start.2.bump :=
    hspells.same ((tokens_bump _).trans (tokens_start c))
  unfold loneAngle
  dsimp only
  refine ⟨?_, htags⟩
  split
  · exact ((Tells.same hread).trans (Tells.report (hbehind.offset_points rfl rfl))).quiet
      (diagnostics_complete ..)
  · exact .same ((diagnostics_complete ..).trans hread)

theorem tells_tag (hm : code.Mute) (hl : code.Lawful False fun _ => True)
    (htags : tags.Stand source) (hspells : Spells source c)
    (hs : Sound False base (tags.markers ++ ms) c) (hk : c.current = .openAngle) :
    TellsWalk source c (c.tag code tags) := by
  unfold tag
  dsimp only
  split
  · exact tells_loneAngle htags hspells
  · next hnext =>
    split
    · exact ⟨.same (diagnostics_specialTag hm c), htags⟩
    · split
      · next hslash => exact tells_endTag htags hspells hk hslash
      · exact tells_startTag hm hl htags hspells hs hk hnext

theorem tells_tagsFrom (hm : code.Mute) (hl : code.Lawful False fun _ => True) {bound : Nat}
    {w : TagWalk σ} (htags : w.openTags.Stand source) (hspells : Spells source w.cursor)
    (hs : Sound False base (w.openTags.markers ++ ms) w.cursor) :
    TellsWalk source w.cursor (tagsFrom code bound w) := by
  induction bound generalizing w with
  | zero => exact ⟨.same rfl, htags⟩
  | succ bound ih =>
    have hskip := (Reaches.refl hs).skipTo hl.toStepwise .openAngle trivial
    have hat := at_skipTo hl hs .openAngle
    have hquiet : ((w.cursor.skipTo code .openAngle).flush .literal).diagnostics =
        w.cursor.diagnostics := (diagnostics_flush ..).trans (diagnostics_skipTo hm ..)
    have hread := hskip.flush .literal
    have hk : ((w.cursor.skipTo code .openAngle).flush .literal).ahead ≠ [] →
        ((w.cursor.skipTo code .openAngle).flush .literal).current = .openAngle := by
      rw [ahead_flush, current_flush]
      exact hat.resolve_left
    unfold tagsFrom
    dsimp only
    generalize (w.cursor.skipTo code .openAngle).flush .literal = c at hquiet hread hk ⊢
    split
    · exact ⟨.same hquiet, htags⟩
    · next hend =>
      have hne := ahead_ne_nil_of_not_atEnd hend
      have hc := hspells.path hread.path
      have htag := tells_tag hm hl htags hc hread.sound (hk hne)
      have hwalk := (Reaches.refl hread.sound).tag hl False.elim trivial hne
      have htells := (Tells.same hquiet).trans htag.tells
      split
      · exact ⟨htells, htag.names⟩
      · have hrest := ih htag.names (hc.path hwalk.path) hwalk.sound
        exact ⟨htells.trans hrest.tells, hrest.names⟩

theorem tells_endTags {w : TagWalk σ} (htags : w.openTags.Stand source) :
    Tells source w.cursor (endTags w) := by
  have hdrain := tells_drain (c := w.cursor) htags
  unfold endTags
  dsimp only
  have hclaim (claim : Bool) (c : Cursor σ) : ((if claim then ((c.eat .whitespace).2.eat
      .newline).2 else c).flush .literal).diagnostics = c.diagnostics := by
    cases claim <;> simp
  exact hdrain.quiet (hclaim _ _)

theorem tells_tagBlock (hm : code.Mute) (hl : code.Lawful False fun _ => True)
    (hspells : Spells source c) (hs : Sound False base ms c) :
    Tells source c (c.tagBlock code) := by
  have hwalk : TellsWalk source c (tagsFrom code (c.unclaimed + 1) ⟨c, [], false⟩) :=
    tells_tagsFrom (w := ⟨c, [], false⟩) hm hl nofun hspells hs
  exact hwalk.tells.trans (tells_endTags hwalk.names)

/-! ## Units -/

theorem tells_blockContent (hm : code.Mute) (hl : code.Lawful False fun _ => True)
    (hspells : Spells source c) (hs : Sound False base ms c) :
    Tells source c (c.blockContent code) := by
  unfold blockContent
  split
  · exact tells_tagBlock hm hl hspells hs
  · have hread := ((((Reaches.refl hs).flush .literal).bump.flush .markupTransition)
      ).doubledTransition
    have hquiet : (((c.flush .literal).bump.flush .markupTransition).doubledTransition).diagnostics =
        c.diagnostics := by simp
    generalize ((c.flush .literal).bump.flush .markupTransition).doubledTransition = d
      at hread hquiet ⊢
    refine (Tells.same hquiet).trans ?_
    unfold afterTransition
    split
    · exact .same ((diagnostics_singleLine hm _).trans (by simp))
    · exact tells_tagBlock hm hl (hspells.path hread.path) hread.sound
    · exact .refl d
  · exact .refl c
  · obtain ⟨before, hsource, hwidth⟩ := hspells.source_eq
    refine .report ⟨before, c.currentText, Token.textOf c.ahead.tail, ?_, by rw [hwidth],
      List.nil_suffix, nofun⟩
    rw [hsource]
    cases ha : c.ahead with
    | nil => simp [currentText, nthText, Token.textAt, ha]
    | cons t rest => rw [currentText_cons ha, Token.textOf_cons, List.tail_cons]

theorem tells_looseTag (hm : code.Mute) (hl : code.Lawful False fun _ => True)
    (hspells : Spells source c) (hs : Sound False base ms c) (hne : c.ahead ≠ []) :
    Tells source c (c.looseTag code) := by
  have hopen := ((Reaches.refl hs).start.bump).eat .slash
  have hquiet : (c.start.2.bump.eat .slash).2.diagnostics = c.diagnostics := by simp
  have hheld : (c.start.2.bump.eat .slash).2.held = [] :=
    held_eat (held_bump_of_ne_nil (by rwa [ahead_start])) .slash
  unfold looseTag
  split
  · exact .same (diagnostics_specialTag hm c)
  · dsimp only
    generalize (c.start.2.bump.eat .slash).2 = d at hopen hquiet hheld ⊢
    split
    · refine .same ?_
      rw [diagnostics_complete]
      simpa using hquiet
    · have hname := hopen.bangEscape.eatName
      have hread := ((hname.attributes hl (held_eatName (held_bangEscape hheld)) trivial).eat
        .slash).eat .closeAngle
      have hattributes : (((d.bangEscape.eatName.attributes code).2.eat .slash).2.eat
          .closeAngle).2.diagnostics = c.diagnostics := by
        rw [diagnostics_eat, diagnostics_eat, diagnostics_attributes hm, diagnostics_eatName,
          diagnostics_bangEscape, hquiet]
      refine Tells.quiet ?_ (diagnostics_complete ..)
      generalize (((d.bangEscape.eatName.attributes code).2.eat .slash).2.eat .closeAngle).2 = e
        at hread hattributes ⊢
      have hbody := hread.flush .literal
      split
      · split
        · exact (Tells.same ((diagnostics_flush ..).trans hattributes)).trans
            (tells_scriptBody hm hl _ (hspells.path hbody.path) hbody.sound)
        · exact .same ((diagnostics_flush ..).trans hattributes)
      · exact .same hattributes

theorem tells_nestingFrom (hm : code.Mute) (hl : code.Lawful False fun _ => True)
    (opener closer : List Char) {bound depth : Nat} (hdepth : depth ≠ 0) (hspells : Spells source c)
    (hs : Sound False base ms c) :
    Tells source c (nestingFrom code opener closer bound depth c) := by
  induction bound generalizing depth c with
  | zero => exact .refl c
  | succ bound ih =>
    have hskip := (Reaches.refl hs).skipUntil hl.toStepwise
      (fun c => c.at? .text || c.at? .openAngle) trivial
    have hquiet := diagnostics_skipUntil hm c fun c => c.at? .text || c.at? .openAngle
    unfold nestingFrom
    dsimp only
    generalize (c.skipUntil code fun c => c.at? .text || c.at? .openAngle) = d at hskip hquiet ⊢
    have hspells' := hspells.path hskip.path
    have hsame : Tells source c d := .same hquiet
    split
    · exact hsame
    · next hend =>
      have hne := ahead_ne_nil_of_not_atEnd hend
      split
      · have hflush := (Reaches.refl hskip.sound).flush .literal
        have hne' : (d.flush .literal).ahead ≠ [] := by rwa [ahead_flush]
        have htag := tells_looseTag hm hl (hspells'.path hflush.path) hflush.sound hne'
        have hread := (Reaches.refl hflush.sound).looseTag hl trivial hne'
        exact ((hsame.quiet (diagnostics_flush d .literal)).trans htag).trans
          (ih hdepth ((hspells'.path hflush.path).path hread.path) hread.sound)
      · have htext : Reaches False base d ms 0 (d.nestingText opener closer depth).2 ms :=
          (Reaches.refl hskip.sound).nestingText hdepth
        have hread := hsame.quiet (diagnostics_nestingText d opener closer depth)
        split
        · exact hread
        · next hgoes => exact hread.trans (ih hgoes (hspells'.path htext.path) htext.sound)

/-- What a run reports points at the source if what its unit reports does. -/
theorem points_run (body : Cursor σ → Cursor σ) {source : List Char} {context : Context} {host : σ}
    (hbody : ∀ {c : Cursor σ}, Spells source c → Sound False [.placeholder, .placeholder] [] c →
      Tells source c (body c)) {p : Parse σ}
    (hok : ((ofSource source context host).run fun c =>
      (body c.start.2).complete c.start.1 .markupBlock).result = .ok p) :
    ∀ x ∈ p.diagnostics, x.Points source := by
  have hsound := sound_ofSource False source context host
  have hspells : Spells source (ofSource source context host).start.2.start.2 := by
    refine ⟨?_, fun t ht => ?_⟩
    · rw [text_congr (tokens_start _), text_congr (tokens_start _), text_ofSource]
    · rw [tokens_start, tokens_start, tokens_ofSource] at ht
      exact Token.exact_of_mem_lex ht
  have hdiagnostics : p.diagnostics =
      (body (ofSource source context host).start.2.start.2).diagnostics.toList := by
    rw [diagnostics_of_result hok]
    unfold run
    dsimp only
    rw [diagnostics_complete, diagnostics_leaveRest, diagnostics_flush, diagnostics_complete]
  intro x hx
  rw [hdiagnostics] at hx
  rcases hbody hspells hsound x hx with hnone | hpoints
  · cases hnone
  · exact hpoints

end Cursor

/-- Every diagnostic of a parse with implicit code, of a unit or of a nested region, points at a part
of the source. -/
theorem Parser.parse_points {σ : Type} (options : Options) (host : σ) (nesting? : Option Nesting)
    (source : String) : ∃ p, Parser.parse ⟨some options, .implicit, host⟩ nesting? source = .ok p ∧
      ∀ d ∈ p.diagnostics, d.Points source.toList := by
  have hlawful : (EmbeddedCode.implicit : EmbeddedCode σ).Lawful False fun _ => True :=
    Cursor.lawful_implicit False fun _ => True
  obtain ⟨p, hp, -⟩ := Parser.finish_covers hlawful options host nesting? source trivial
  refine ⟨p, by rw [Parser.parse_eq, hp]; rfl, ?_⟩
  rw [finish_eq_run] at hp
  refine Cursor.points_run (content .implicit nesting?) (fun {c} hspells hs => ?_) hp
  cases nesting? with
  | none =>
    have hread := (Cursor.Reaches.refl hs).bumpWhile (·.kind.isTrivia)
    exact (Cursor.Tells.same (Cursor.diagnostics_bumpWhile c _)).trans
      (Cursor.tells_blockContent Cursor.mute_implicit hlawful (hspells.path hread.path) hread.sound)
  | some nesting =>
    exact (Cursor.tells_nestingFrom Cursor.mute_implicit hlawful _ _ Nat.one_ne_zero hspells hs).quiet
      (Cursor.diagnostics_flush _ _)

end TemplateMarkup
