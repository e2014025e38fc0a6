import TemplateMarkup.Proofs.MissingTokens
import TemplateMarkup.Proofs.Schema

/-! # Unfinished tags are reported where their ends are missing

Three parts of the grammar look for the `>` of a tag: that of a start tag, of an end tag,
and of the end tag of a script. Each reports a tag that has none and closes its node with
an empty `>`. All other parts keep gaps and reports in step by doing neither, so in the
tree of every parse the gaps are those tags, in the order of the reports. -/

namespace TemplateMarkup

open TemplateMarkup.Tree

/-- Code that reports nothing, adds only what may stand anywhere, and keeps to its rules. -/
structure EmbeddedCode.Plain {σ : Type} (code : EmbeddedCode σ) : Prop where
  mute : code.Mute
  planting : code.Planting
  lawful : code.Lawful False fun _ => True

theorem EmbeddedCode.plain_implicit {σ : Type} : (implicit : EmbeddedCode σ).Plain :=
  ⟨Cursor.mute_implicit, Cursor.planting_implicit, Cursor.lawful_implicit False fun _ => True⟩

namespace Cursor

variable {σ : Type} {code : EmbeddedCode σ} {source name written lead : List Char}
  {c d e : Cursor σ} {base : List Event} {ms : List Marker} {range : Range}

/-! ## What is never unfinished -/

namespace Keeps

theorem skipUntil (h : Keeps source c d) (hc : code.Plain) (stop : Cursor σ → Bool) :
    Keeps source c (d.skipUntil code stop) :=
  h.plants ((Plants.refl d).skipUntil hc.planting rfl stop) (diagnostics_skipUntil hc.mute d stop)

theorem skipTo (h : Keeps source c d) (hc : code.Plain) (kind : Kind) :
    Keeps source c (d.skipTo code kind) := h.skipUntil hc _

theorem acceptThrough (h : Keeps source c d) (hc : code.Plain) (first : Kind) (rest : List Kind) :
    Keeps source c (d.acceptThrough code first rest).2 :=
  h.plants ((Plants.refl d).acceptThrough hc.planting rfl first rest)
    (diagnostics_acceptThrough hc.mute d first rest)

theorem bangEscape (h : Keeps source c d) : Keeps source c d.bangEscape := by
  unfold Cursor.bangEscape
  split
  · exact ((h.flush .literal).moves (.bump _)).flush .metacode
  · exact h

end Keeps

theorem keeps_specialTag (hc : code.Plain) (c : Cursor σ) :
    Keeps source c (c.specialTag code).2 := by
  have hopen : Keeps source c (c.bumpN 2) := (Keeps.refl c).moves (.bumpN c 2)
  unfold specialTag
  split
  · unfold bangTag
    dsimp only
    split
    · have hbody : Keeps source c.start.2 ((c.start.2.bumpN 3).flush .literal) :=
        ((Keeps.refl _).moves (.bumpN _ 3)).flush .literal
      unfold htmlComment
      dsimp only
      exact (hbody.plants (plants_commentBodyFrom hc.planting _ _)
        (diagnostics_commentBodyFrom hc.mute _ _)).node .commentBlock
    · refine Keeps.flush ?_ .literal
      split
      · exact (hopen.moves (.bumpN _ 3)).acceptThrough hc _ _
      · exact hopen.acceptThrough hc _ _
  · exact (hopen.acceptThrough hc _ _).flush .literal

/-! ## Attributes -/

theorem keeps_attributeValue (hc : code.Plain) (c : Cursor σ) :
    Keeps source c (c.attributeValue code).2 := by
  unfold attributeValue
  dsimp only
  by_cases hquoted : c.current = .doubleQuote ∨ c.current = .singleQuote
  · simp only [if_pos hquoted]
    have hopen : Keeps source c c.bump := (Keeps.refl c).moves (.bump c)
    have hvalue : Keeps source c.bump.start.2 (c.bump.start.2.skipTo code c.current) :=
      (Keeps.refl _).skipTo hc _
    exact (hopen.trans (hvalue.node .attributeValue)).moves (.eat _ _)
  · simp only [if_neg hquoted]
    exact ((Keeps.refl c.start.2).skipUntil hc atBareValueEnd).node .attributeValue

theorem keeps_readAttribute (hc : code.Plain) (c : Cursor σ) :
    Keeps source c (c.readAttribute code).2 := by
  have hname : Keeps source c.start.2 (c.start.2.bumpWhile (!·.kind.endsAttributeName)) :=
    (Keeps.refl _).moves (.bumpWhile _ _)
  unfold readAttribute
  dsimp only
  split
  · dsimp only
    refine Keeps.node (Keeps.trans ?_ (keeps_attributeValue hc _)) .attributeBlock
    exact (hname.moves (.bumpN _ _)).moves (.bumpWhile _ _)
  · exact hname.node .attributeBlock

theorem Keeps.attributes (h : Keeps source c d) (hc : code.Plain) :
    Keeps source c (d.attributes code).2 := by
  refine h.trans ?_
  unfold Cursor.attributes
  generalize code.budget d = bound
  clear h
  induction bound generalizing d with
  | zero => exact (Keeps.refl d).moves (.fail d _)
  | succ bound ih =>
    have hspace : Keeps source d (d.bumpWhile (·.kind.isTrivia)) :=
      (Keeps.refl d).moves (.bumpWhile d _)
    rcases attributesFrom_succ code bound d with hend | ⟨e, hround, hgo⟩
    · rw [hend]
      exact hspace
    · rw [hgo]
      refine (hspace.trans ?_).trans ih
      cases hround with
      | token => exact (Keeps.refl _).moves (.bump _)
      | block =>
        exact ((Keeps.refl _).flush .literal).plants (hc.planting.block _ rfl) (hc.mute.block _)
      | comment =>
        exact ((Keeps.refl _).flush .literal).plants (hc.planting.comment _ rfl) (hc.mute.comment _)
      | named => exact keeps_readAttribute hc _

/-! ## Ends of tags -/

/-- A report about the tag whose name stands there. -/
theorem aboutTag {start : Nat} (h : NameAt source lead written start)
    (hlead : lead = ['<'] ∨ lead = ['<', '/']) (hname : Text.sameIgnoringCase written name = true)
    (hrange : range.start = start + Text.width lead) :
    Diagnostic.AboutTag source start ⟨.unfinishedTag name, range⟩ :=
  ⟨lead, name, written, hlead, h, rfl, hname, hrange⟩

theorem keeps_endTagBlock (h : NameAt source ['<', '/'] name c.offset) (hheld : c.held = []) :
    Keeps source c (c.endTagBlock name).2 := by
  have hopen : Keeps source c.start.2 (c.start.2.bumpN 2).bangEscape :=
    ((Keeps.refl _).moves (.bumpN _ 2)).bangEscape
  have hname := (hopen.moves (.eatName _)).moves (.acceptUntil _ [.closeAngle, .openAngle])
  have habout : Diagnostic.AboutTag source c.offset
      ⟨.unfinishedTag name, .ofText (c.offset + 2) name⟩ :=
    aboutTag h (.inr rfl) (Text.sameIgnoringCase_refl name) rfl
  unfold endTagBlock
  dsimp only
  exact hname.closeTag hheld habout

theorem keeps_textEndTag (name : List Char) (c : Cursor σ) :
    Keeps source c (c.textEndTag name) := by
  have hopen : Keeps source c ((c.bumpN 2).eatName.eat .closeAngle).2 :=
    (((Keeps.refl c).moves (.bumpN c 2)).moves (.eatName _)).moves (.eat _ _)
  unfold textEndTag
  dsimp only
  split
  · exact hopen.flush _
  · exact ((hopen.report rfl _).moves (.recoverTextTag _)).flush _

theorem Keeps.textTag {range : Range} {e : Cursor σ} (h : Keeps source c d)
    (hends : TextTagEnds range d e) : Keeps source c (e.flush .markupTransition) := by
  refine Keeps.flush ?_ _
  cases hends with
  | closed => exact h.moves (.bumpN _ _)
  | reported => exact (h.report rfl _).moves (.recoverTextTag _)

theorem Keeps.voidEndTag (h : Keeps source c d) (name : List Char) :
    Keeps source c (d.voidEndTag name) := by
  unfold Cursor.voidEndTag
  dsimp only
  split
  · have hname := (h.moves (.bumpN d (d.spacing 0 + 2))).moves (.eatName _)
    have hskip := hname.moves (.acceptUntil _ [.closeAngle, .openAngle])
    exact (hskip.moves (.eat _ .closeAngle)).flush .literal
  · exact h

/-- The end tag of a script is reported under the name of its start tag. -/
theorem keeps_scriptBodyFrom (hc : code.Plain) (name : List Char) (bound : Nat)
    (h : Spells source c) (hs : Sound False base ms c) :
    Keeps source c (scriptBodyFrom code name bound c) := by
  induction bound generalizing c with
  | zero => exact (Keeps.refl c).moves (.fail c _)
  | succ bound ih =>
    have hreach := (Reaches.refl hs).skipTo hc.lawful.toStepwise .openAngle trivial
    have hskip : Keeps source c (c.skipTo code .openAngle) := (Keeps.refl c).skipTo hc _
    have hat := at_skipTo hc.lawful hs .openAngle
    have hheld := held_skipTo hc.lawful hs .openAngle
    have hspells := h.path hreach.path
    have hsound := hreach.sound
    unfold scriptBodyFrom
    dsimp only
    generalize c.skipTo code .openAngle = d at hskip hat hheld hspells hsound ⊢
    split
    · exact hskip
    · next hend =>
      have hk : d.current = .openAngle := hat.resolve_left (ahead_ne_nil_of_not_atEnd hend)
      split
      · next hclose =>
        have hname : Keeps source d.start.2 ((d.start.2.bumpN 2).eatName.skipTo code .closeAngle) :=
          (((Keeps.refl _).moves (.bumpN _ 2)).moves (.eatName _)).skipTo hc _
        have habout : Diagnostic.AboutTag source d.offset
            ⟨.unfinishedTag name, .ofText (d.offset + 2) name⟩ :=
          aboutTag (hspells.endTag_name hk hclose.1) (.inr rfl) hclose.2 rfl
        exact hskip.trans (hname.closeTag hheld habout)
      · have hbump := (Reaches.refl hsound).bump
        exact (hskip.moves (.bump d)).trans (ih (hspells.path hbump.path) hbump.sound)

theorem keeps_scriptBody (hc : code.Plain) (name : List Char) (h : Spells source c)
    (hs : Sound False base ms c) : Keeps source c (c.scriptBody code name) :=
  keeps_scriptBodyFrom hc name _ h hs

/-! ## The nodes of open tags -/

/-- The open nodes are those of the open tags, down to that in which the walk over the tags began. A
tag of the text element has none. -/
inductive OpenNodes (fs : List (List Tree)) : OpenTags → List (List Tree) → Prop
  | none {f : List Tree} : OpenNodes fs [] (f :: fs)
  | bare {t : OpenTag} {tags : OpenTags} {frames : List (List Tree)} : t.block? = .none →
      OpenNodes fs tags frames → OpenNodes fs (t :: tags) frames
  | node {t : OpenTag} {m : Marker} {tags : OpenTags} {f : List Tree} {frames : List (List Tree)} :
      t.block? = some m → m.index = (framesEvents frames).length → OpenNodes fs tags frames →
      OpenNodes fs (t :: tags) (f :: frames)

namespace OpenNodes

variable {fs frames : List (List Tree)} {tags : OpenTags}

theorem exists_cons (h : OpenNodes fs tags frames) : ∃ f outer, frames = f :: outer := by
  induction h with
  | none => exact ⟨_, _, rfl⟩
  | bare _ _ ih => exact ih
  | node => exact ⟨_, _, rfl⟩

/-- The innermost node may grow. -/
theorem grow {f : List Tree} {outer : List (List Tree)} (h : OpenNodes fs tags (f :: outer))
    (f' : List Tree) : OpenNodes fs tags (f' :: outer) := by
  generalize hframes : f :: outer = frames at h
  induction h with
  | none =>
    cases hframes
    exact .none
  | bare ht _ ih => exact .bare ht (ih hframes)
  | node ht hm hrest =>
    cases hframes
    exact .node ht hm hrest

end OpenNodes

/-- Between two tags the gaps of the open tags and of what stands around them are those reported. -/
def Standing (source : List Char) (fs : List (List Tree)) (reports : List Diagnostic) (c : Cursor σ)
    (tags : OpenTags) : Prop :=
  ∃ frames, Tallies source reports c frames ∧ OpenNodes fs tags frames

/-- The same of a state of the walk. -/
def WalkStands (source : List Char) (fs : List (List Tree)) (w : TagWalk σ) : Prop :=
  Standing source fs w.cursor.unfinished w.cursor w.openTags

namespace Standing

variable {fs : List (List Tree)} {reports : List Diagnostic} {tags : OpenTags} {t : OpenTag}
  {w : TagWalk σ}

theorem walk (h : Standing source fs c.unfinished c tags) (complete : Bool) :
    WalkStands source fs ⟨c, tags, complete⟩ := h

theorem keeps (h : Standing source fs c.unfinished c tags) (hkeeps : Keeps source c d) :
    Standing source fs d.unfinished d tags := by
  obtain ⟨frames, ht, hopen⟩ := h
  obtain ⟨f, outer, rfl⟩ := hopen.exists_cons
  obtain ⟨f', ht'⟩ := hkeeps ht
  exact ⟨_, ht', hopen.grow f'⟩

/-- A text tag that opens. -/
theorem pushBare (h : Standing source fs reports c tags) (ht : t.block? = .none) :
    Standing source fs reports c (t :: tags) := by
  obtain ⟨frames, htallies, hopen⟩ := h
  exact ⟨frames, htallies, .bare ht hopen⟩

/-- A tag that opens with a node of its own. -/
theorem push (h : Standing source fs c.unfinished c tags) (hkeeps : Keeps source c.start.2 d)
    (ht : t.block? = some c.start.1) : Standing source fs d.unfinished d (t :: tags) := by
  obtain ⟨frames, htallies, hopen⟩ := h
  obtain ⟨f, outer, rfl⟩ := hopen.exists_cons
  obtain ⟨inner, hinner⟩ := hkeeps htallies.start_unfinished
  exact ⟨_, hinner, .node ht htallies.shows.start.2 (hopen.grow _)⟩

/-- A tag that is closed. -/
theorem close (h : Standing source fs reports c (t :: tags)) :
    Standing source fs reports (t.close c) tags := by
  obtain ⟨frames, htallies, hopen⟩ := h
  unfold OpenTag.close
  cases hopen with
  | bare ht hrest =>
    rw [ht]
    exact ⟨_, htallies, hrest⟩
  | node ht hm hrest =>
    obtain ⟨f, outer, rfl⟩ := hrest.exists_cons
    rw [ht]
    exact ⟨_, htallies.complete hm .tagBlock, hrest.grow _⟩

theorem keepsTags : KeepsTags (Standing source fs reports (σ := σ)) where
  report problem range h := by
    obtain ⟨frames, htallies, hopen⟩ := h
    exact ⟨frames, htallies.report problem range, hopen⟩
  close h := h.close

end Standing

theorem unfinished_closeUnended (t : OpenTag) (c : Cursor σ) :
    (t.closeUnended c).unfinished = c.unfinished :=
  (unfinished_congr (diagnostics_close t _)).trans (unfinished_report_other rfl c t.nameRange)

theorem unfinished_removeMatching (name : List Char) (endTag : Nat) (tags : OpenTags)
    (c : Cursor σ) : (OpenTags.removeMatching name endTag tags c).2.2.unfinished = c.unfinished := by
  induction tags generalizing c with
  | nil => exact unfinished_report_other rfl c _
  | cons t rest ih =>
    unfold OpenTags.removeMatching
    split
    · rfl
    · dsimp only
      split
      · exact unfinished_closeUnended t c
      · exact (ih _).trans (unfinished_closeUnended t c)

theorem unfinished_drain (tags : OpenTags) (c : Cursor σ) :
    (tags.drain c).2.unfinished = c.unfinished := by
  cases tags with
  | nil => rfl
  | cons t rest =>
    exact (unfinished_congr (diagnostics_foldl_close rest _)).trans (unfinished_closeUnended t c)

theorem keepsTags_held : KeepsTags fun (c : Cursor σ) _ => c.held = [] where
  report problem range h := by
    unfold Cursor.report
    dsimp only
    split <;> exact h
  close h := by
    unfold OpenTag.close
    split
    · rw [held_complete, h]
    · exact h

/-! ## Tags -/

namespace Standing

variable {fs : List (List Tree)} {tags : OpenTags} {w : TagWalk σ}

theorem restOfStartTag (h : Standing source fs c.unfinished c tags) (hc : code.Plain)
    (hname : NameAt source ['<'] name c.offset) (hopen : Keeps source c.start.2 d)
    (hheld : c.held = []) (hread : d.held = []) (hspells : Spells source d)
    (hs : Sound False base (c.start.1 :: (tags.markers ++ ms)) d) :
    WalkStands source fs (d.restOfStartTag code tags c.start.1 name c.offset) := by
  have hnode {e : Cursor σ} (he : Keeps source c.start.2 e) (complete : Bool) :
      WalkStands source fs ⟨e.complete c.start.1 .tagBlock, tags, complete⟩ :=
    (h.keeps (he.node .tagBlock)).walk complete
  have hreach := (Reaches.refl hs).attributes hc.lawful hread trivial
  have hattributes := hopen.attributes hc
  have heat := hattributes.moves (.eat _ .slash)
  have hflush (hclosed : (d.throughHead code name c.offset).1 = true) :
      Keeps source c.start.2 (d.behindHead code name c.offset) :=
    (heat.closed hclosed).flush .literal
  have hends := restOfStartTag_ends code tags c.start.1 name c.offset d
  generalize d.restOfStartTag code tags c.start.1 name c.offset = w at hends ⊢
  cases hends with
  | cutOff => exact hnode hattributes _
  | unclosed =>
    have habout : Diagnostic.AboutTag source c.offset
        ⟨.unfinishedTag name, ⟨c.offset + 1, c.offset + 1 + max (Text.width name) 1⟩⟩ :=
      aboutTag hname (.inl rfl) (Text.sameIgnoringCase_refl name) rfl
    exact (h.keeps (heat.closeTag hheld habout)).walk _
  | selfClosing hclosed => exact hnode (hflush hclosed) _
  | void hopens => exact hnode ((hflush hopens.closed).voidEndTag name) _
  | script hopens =>
    have hrange : (⟨c.offset + 1, c.offset + 1 + max (Text.width name) 1⟩ : Range).start ≤
        c.offset + 1 + max (Text.width name) 1 := Nat.le_add_right _ _
    have hbody := ((hreach.eat .slash).closeAngle name hrange False.elim).flush .literal
    exact hnode ((hflush hopens.closed).trans (keeps_scriptBody hc name (hspells.path hbody.path)
      hbody.sound)) _
  | opened hopens => exact (h.push (hflush hopens.closed) rfl).walk _

theorem textStartTag (h : Standing source fs c.unfinished c tags) (name : List Char) :
    WalkStands source fs (c.textStartTag tags name) := by
  have hname : Keeps source c c.bump.eatName := ((Keeps.refl c).moves (.bump c)).moves (.eatName _)
  have hends := textStartTag_ends tags name c
  generalize c.textStartTag tags name = w at hends ⊢
  cases hends with
  | selfClosing _ hread => exact (h.keeps ((hname.moves (.bumpN _ _)).textTag hread)).walk _
  | opened _ hread => exact ((h.keeps (hname.textTag hread)).pushBare rfl).walk _

theorem startTag (h : Standing source fs c.unfinished c tags) (hc : code.Plain)
    (hspells : Spells source c) (hs : Sound False base (tags.markers ++ ms) c)
    (hheld : c.held = []) (hk : c.current = .openAngle) :
    WalkStands source fs (c.startTag code tags) := by
  unfold Cursor.startTag
  dsimp only
  split
  · exact h.textStartTag _
  · have hopen := (Reaches.refl hs).start.bump.bangEscape.eatName
    have hname : Keeps source c.start.2 c.start.2.bump.bangEscape.eatName :=
      ((Keeps.refl _).moves (.bump _)).bangEscape.moves (.eatName _)
    have hread : c.start.2.bump.bangEscape.eatName.held = [] :=
      held_eatName (held_bangEscape (held_bump_of_held ((held_start c).trans hheld)))
    exact h.restOfStartTag hc (hspells.startTag_name hk) hname hheld hread (hspells.path hopen.path)
      hopen.sound

theorem endTag (h : Standing source fs c.unfinished c tags) (hspells : Spells source c)
    (hheld : c.held = []) (hk : c.current = .openAngle) (hslash : c.nth 1 = .slash) :
    WalkStands source fs (c.endTag tags) := by
  have hbare : Keeps source c.start.2 (c.start.2.bumpN 2) := (Keeps.refl _).moves (.bumpN _ 2)
  have hremoved {t? : Option OpenTag} {rest : OpenTags} {d : Cursor σ}
      (hr : OpenTags.removeMatching (c.tagNameAt 2) c.offset tags c = (t?, rest, d)) :
      Standing source fs d.unfinished d (t?.toList ++ rest) := by
    have hreports := unfinished_removeMatching (c.tagNameAt 2) c.offset tags c
    rw [hr] at hreports
    exact hreports ▸ keepsTags.removeMatching h hr
  have hblock {t? : Option OpenTag} {rest : OpenTags} {d : Cursor σ}
      (hr : OpenTags.removeMatching (c.tagNameAt 2) c.offset tags c = (t?, rest, d)) :
      Keeps source d (d.endTagBlock (c.tagNameAt 2)).2 := by
    have hname := hspells.endTag_name hk hslash
    have htokens := tokens_removeMatching (c.tagNameAt 2) c.offset tags c
    have hahead := ahead_removeMatching (c.tagNameAt 2) c.offset tags c
    rw [hr] at htokens hahead
    rw [← offset_congr (text_congr htokens) hahead] at hname
    exact keeps_endTagBlock hname (keepsTags_held.removeMatching hheld hr)
  have hends := endTag_ends tags c
  generalize c.endTag tags = w at hends ⊢
  cases hends with
  | bare => exact (h.keeps (hbare.node .tagBlock)).walk _
  | unmatched _ hr => exact ((hremoved hr).keeps (hblock hr)).walk _
  | @text t d _ hr =>
    have hclosed := (hremoved hr).close
    rw [← unfinished_congr (diagnostics_close t d)] at hclosed
    exact (hclosed.keeps (keeps_textEndTag _ _)).walk _
  | @element t rest d _ hr =>
    have hclosed := ((hremoved hr).keeps (hblock hr)).close
    rw [← unfinished_congr (diagnostics_close t _)] at hclosed
    exact hclosed.walk _

theorem loneAngle (h : Standing source fs c.unfinished c tags) :
    WalkStands source fs (c.loneAngle tags) := by
  have hbump : Keeps source c.start.2 c.start.2.bump := (Keeps.refl _).moves (.bump _)
  refine h.keeps ?_
  unfold Cursor.loneAngle
  dsimp only
  split
  · exact (hbump.report rfl _).node .tagBlock
  · exact hbump.node .tagBlock

theorem tag (h : Standing source fs c.unfinished c tags) (hc : code.Plain)
    (hspells : Spells source c) (hs : Sound False base (tags.markers ++ ms) c)
    (hheld : c.held = []) (hk : c.current = .openAngle) :
    WalkStands source fs (c.tag code tags) := by
  unfold Cursor.tag
  split
  · exact h.loneAngle
  · split
    · exact (h.keeps (keeps_specialTag hc c)).walk _
    · split
      · next hslash => exact h.endTag hspells hheld hk hslash
      · exact h.startTag hc hspells hs hheld hk

theorem tagsFrom (hc : code.Plain) (bound : Nat) (h : WalkStands source fs w)
    (hspells : Spells source w.cursor)
    (hs : Sound False base (w.openTags.markers ++ ms) w.cursor) :
    WalkStands source fs (Cursor.tagsFrom code bound w) := by
  induction bound generalizing w with
  | zero => exact (h.keeps ((Keeps.refl _).moves (.fail _ _))).walk _
  | succ bound ih =>
    have hskip : Standing source fs ((w.cursor.skipTo code .openAngle).flush .literal).unfinished
        ((w.cursor.skipTo code .openAngle).flush .literal) w.openTags :=
      h.keeps (((Keeps.refl _).skipTo hc _).flush .literal)
    have hread := ((Reaches.refl hs).skipTo hc.lawful.toStepwise .openAngle trivial).flush .literal
    have hheld : ((w.cursor.skipTo code .openAngle).flush .literal).held = [] := by
      rw [held_flush, held_skipTo hc.lawful hs]
    have hk : ((w.cursor.skipTo code .openAngle).flush .literal).ahead ≠ [] →
        ((w.cursor.skipTo code .openAngle).flush .literal).current = .openAngle := by
      rw [ahead_flush, current_flush]
      exact (at_skipTo hc.lawful hs .openAngle).resolve_left
    unfold Cursor.tagsFrom
    dsimp only
    generalize (w.cursor.skipTo code .openAngle).flush .literal = c at hskip hread hheld hk ⊢
    split
    · exact hskip.walk _
    · next hend =>
      have hne := ahead_ne_nil_of_not_atEnd hend
      have hc' := hspells.path hread.path
      have htag := hskip.tag hc hc' hread.sound hheld (hk hne)
      have hwalk := (Reaches.refl hread.sound).tag hc.lawful False.elim trivial hne
      split
      · exact htag
      · exact ih htag (hc'.path hwalk.path) hwalk.sound

end Standing

/-! ## Units of markup -/

theorem keeps_endTags {fs : List (List Tree)} {w : TagWalk σ} (h : WalkStands source fs w) :
    Standing source fs (endTags w).unfinished (endTags w) [] := by
  have hdrained := Standing.keepsTags.drain h
  rw [← unfinished_drain w.openTags w.cursor] at hdrained
  have hclaim (claim : Bool) (c : Cursor σ) : Keeps source c
      ((if claim then ((c.eat .whitespace).2.eat .newline).2 else c).flush .literal) := by
    refine Keeps.flush ?_ .literal
    cases claim with
    | false => exact .refl c
    | true => exact ((Keeps.refl c).moves (.eat c _)).moves (.eat _ _)
  unfold endTags
  dsimp only
  exact hdrained.keeps (hclaim _ _)

theorem keeps_tagBlock (hc : code.Plain) (hspells : Spells source c) (hs : Sound False base ms c) :
    Keeps source c (c.tagBlock code) := by
  intro f fs ht
  have hstart : WalkStands source fs ⟨c, [], false⟩ := ⟨_, ht, .none⟩
  have hwalk := Standing.tagsFrom hc (c.unclaimed + 1) hstart hspells hs
  obtain ⟨frames, htallies, hopen⟩ := keeps_endTags hwalk
  cases hopen with
  | none => exact ⟨_, htallies⟩

theorem keeps_singleLine (hc : code.Plain) (c : Cursor σ) : Keeps source c (c.singleLine code) := by
  have hinside : Keeps source c { c with context.whitespaceSignificant := true } :=
    (Keeps.refl c).plants (.same rfl rfl rfl) rfl
  have hline := (hinside.skipTo hc .newline).moves (.eat _ .newline)
  unfold singleLine
  dsimp only
  refine Keeps.flush ?_ .literal
  exact hline.plants (.same rfl rfl rfl) rfl

theorem keeps_blockContent (hc : code.Plain) (hspells : Spells source c)
    (hs : Sound False base ms c) : Keeps source c (c.blockContent code) := by
  unfold blockContent
  split
  · exact keeps_tagBlock hc hspells hs
  · have hread := ((((Reaches.refl hs).flush .literal).bump.flush .markupTransition)
      ).doubledTransition
    have hdoubled (c : Cursor σ) : Keeps source c c.doubledTransition := by
      unfold doubledTransition
      dsimp only
      split
      · exact ((Keeps.refl c).moves (.eat c _)).flush .metacode
      · exact (Keeps.refl c).moves (.eat c _)
    have htransition : Keeps source c ((c.flush .literal).bump.flush .markupTransition) :=
      (((Keeps.refl c).flush .literal).moves (.bump _)).flush .markupTransition
    refine (htransition.trans (hdoubled _)).trans ?_
    generalize ((c.flush .literal).bump.flush .markupTransition).doubledTransition = d at hread ⊢
    unfold afterTransition
    split
    · exact (((Keeps.refl d).moves (.bump d)).flush .metacode).trans (keeps_singleLine hc _)
    · exact keeps_tagBlock hc (hspells.path hread.path) hread.sound
    · exact .refl d
  · exact .refl c
  · exact (Keeps.refl c).report rfl _

theorem keeps_looseTag (hc : code.Plain) (hspells : Spells source c) (hs : Sound False base ms c)
    (hne : c.ahead ≠ []) : Keeps source c (c.looseTag code) := by
  have hopen : Keeps source c.start.2 (c.start.2.bump.eat .slash).2 :=
    ((Keeps.refl _).moves (.bump _)).moves (.eat _ _)
  have hreach := ((Reaches.refl hs).start.bump).eat .slash
  have hheld : (c.start.2.bump.eat .slash).2.held = [] :=
    held_eat (held_bump_of_ne_nil (by rwa [ahead_start])) .slash
  unfold looseTag
  split
  · exact keeps_specialTag hc c
  · dsimp only
    generalize (c.start.2.bump.eat .slash).2 = d at hopen hreach hheld ⊢
    have hname := hopen.bangEscape.moves (.eatName _)
    split
    · exact ((hname.moves (.bumpWhile _ _)).moves (.eat _ _)).node .tagBlock
    · refine Keeps.node ?_ .tagBlock
      have hread := (((hname.attributes hc).moves (.eat _ .slash)).moves (.eat _ .closeAngle))
      have hbody := (((hreach.bangEscape.eatName.attributes hc.lawful
        (held_eatName (held_bangEscape hheld)) trivial).eat .slash).eat .closeAngle).flush .literal
      split
      · split
        · exact (hread.flush .literal).trans
            (keeps_scriptBody hc _ (hspells.path hbody.path) hbody.sound)
        · exact hread.flush .literal
      · exact hread

theorem keeps_nestingFrom (hc : code.Plain) (opener closer : List Char) {bound depth : Nat}
    (hdepth : depth ≠ 0) (hspells : Spells source c) (hs : Sound False base ms c) :
    Keeps source c (nestingFrom code opener closer bound depth c) := by
  induction bound generalizing depth c with
  | zero => exact (Keeps.refl c).moves (.fail c _)
  | succ bound ih =>
    have hskip := (Reaches.refl hs).skipUntil hc.lawful.toStepwise
      (fun c => c.at? .text || c.at? .openAngle) trivial
    have hkeeps : Keeps source c (c.skipUntil code fun c => c.at? .text || c.at? .openAngle) :=
      (Keeps.refl c).skipUntil hc _
    unfold nestingFrom
    dsimp only
    generalize (c.skipUntil code fun c => c.at? .text || c.at? .openAngle) = d at hskip hkeeps ⊢
    have hspells' := hspells.path hskip.path
    split
    · exact hkeeps
    · next hend =>
      have hne := ahead_ne_nil_of_not_atEnd hend
      split
      · have hflush := (Reaches.refl hskip.sound).flush .literal
        have hne' : (d.flush .literal).ahead ≠ [] := by rwa [ahead_flush]
        have htag := keeps_looseTag hc (hspells'.path hflush.path) hflush.sound hne'
        have hread := (Reaches.refl hflush.sound).looseTag hc.lawful trivial hne'
        exact ((hkeeps.flush .literal).trans htag).trans
          (ih hdepth ((hspells'.path hflush.path).path hread.path) hread.sound)
      · have htext : Reaches False base d ms 0 (d.nestingText opener closer depth).2 ms :=
          (Reaches.refl hskip.sound).nestingText hdepth
        have hread := hkeeps.moves (moves_nestingText d opener closer depth)
        split
        · exact hread
        · next hgoes => exact hread.trans (ih hgoes (hspells'.path htext.path) htext.sound)

theorem keeps_content (hc : code.Plain) (nesting? : Option Nesting) (hspells : Spells source c)
    (hs : Sound False base ms c) : Keeps source c (Parser.content code nesting? c) := by
  cases nesting? with
  | none =>
    have hread := (Reaches.refl hs).bumpWhile (·.kind.isTrivia)
    exact ((Keeps.refl c).moves (.bumpWhile c _)).trans
      (keeps_blockContent hc (hspells.path hread.path) hread.sound)
  | some nesting => exact (keeps_nestingFrom hc _ _ Nat.one_ne_zero hspells hs).flush .literal

/-! ## The tree of a parse -/

/-- If the unit keeps gaps and reports in step, so does the run. -/
theorem gaps_run (body : Cursor σ → Cursor σ) {source : List Char} {context : Context} {host : σ}
    (hbody : ∀ {c : Cursor σ}, Spells source c → Sound False [.placeholder, .placeholder] [] c →
      Keeps source c (body c)) {p : Parse σ}
    (hok : ((ofSource source context host).run fun c =>
      (body c.start.2).complete c.start.1 .markupBlock).result = .ok p) :
    p.tree.isNode = true ∧ List.Forall₂ (Gap.Reported source) p.tree.gaps
      (p.diagnostics.filter (·.problem.isUnfinished)) := by
  have hsound := sound_ofSource False source context host
  have hroot := shows_root source context host
  have hspells : Spells source (ofSource source context host).start.2 := by
    refine ⟨?_, fun t ht => ?_⟩
    · rw [text_congr (tokens_start _), text_ofSource]
    · rw [tokens_start, tokens_ofSource] at ht
      exact Token.exact_of_mem_lex ht
  have hnone : (ofSource source context host).start.2.unfinished = [] := rfl
  unfold run at hok
  dsimp only at hok
  generalize (ofSource source context host).start.2 = c at hok hsound hroot hspells hnone
  have hkeeps := (hbody (hspells.same (tokens_start c)) hsound).node .markupBlock
  generalize (body c.start.2).complete c.start.1 .markupBlock = d at hok hkeeps
  have hempty : Tallies source c.unfinished c [[]] := by
    refine ⟨hroot, List.forall_mem_cons.mpr ⟨nofun, nofun⟩, ?_⟩
    rw [hnone]
    exact .nil
  obtain ⟨f, hend⟩ := hkeeps hempty
  obtain ⟨htree, hdiagnostics⟩ := result_of_shows hend.shows hok
  have hunread : ∀ t ∈ flushTrees .unparsed (d.held.reverse ++ d.ahead).reverse, t.Whole := by
    refine whole_flushTrees fun t ht => (hend.shows.sane t ?_).text_ne_nil
    rw [List.reverse_reverse, List.mem_append] at ht
    simp only [tokens, List.mem_append]
    exact ht.imp .inr id
  have hpending : ∀ t ∈ flushTrees .literal d.pending, t.Whole :=
    whole_flushTrees hend.shows.pending_sane
  have hwhole := List.forall_mem_append.mpr ⟨hpending, hunread⟩
  have hgaps : p.tree.gaps = framesGaps [f] := by
    rw [htree, List.append_assoc]
    show gapsOf _ 0 0 _ = _
    rw [gapsOf_append, gapsOf_of_whole hwhole, List.append_nil]
    exact gapsOf_of_nodes (hend.nodes f (List.mem_singleton_self f)) _ _
  rw [hgaps, hdiagnostics]
  exact ⟨by rw [htree]; rfl, hend.gaps⟩

end Cursor

/-- In a parse with implicit code, of a unit or of a nested region, the empty tokens of the tree are
all `>`, and they match the reports of unfinished tags one to one and in order: the node that holds
the token is the tag that is reported. -/
theorem Parser.parse_missing_reported {σ : Type} (options : Options) (host : σ)
    (nesting? : Option Nesting) (source : String) :
    ∃ p, Parser.parse ⟨some options, .implicit, host⟩ nesting? source = .ok p ∧
      p.tree.subtrees.filter isGap = p.tree.gaps.map (fun _ => .token .closeAngle []) ∧
      (∀ g ∈ p.tree.gaps, p.tree.HasGap 0 g) ∧
      List.Forall₂ (Gap.Reported source.toList) p.tree.gaps
        (p.diagnostics.filter (·.problem.isUnfinished)) := by
  have hplain : (EmbeddedCode.implicit : EmbeddedCode σ).Plain := EmbeddedCode.plain_implicit
  obtain ⟨p, hp, -⟩ := Parser.finish_covers hplain.lawful options host nesting? source trivial
  have hparse : Parser.parse ⟨some options, .implicit, host⟩ nesting? source = .ok p := by
    rw [Parser.parse_eq, hp]
    rfl
  rw [finish_eq_run] at hp
  obtain ⟨hnode, hgaps⟩ := Cursor.gaps_run (content .implicit nesting?)
    (Cursor.keeps_content hplain nesting?) hp
  refine ⟨p, hparse, ?_, fun g hg => hasGap_of_mem p.tree 0 hg, hgaps⟩
  have hkind : ∀ g ∈ p.tree.gaps, g.kind = .closeAngle := by
    intro g hg
    obtain ⟨i, hi, rfl⟩ := List.mem_iff_getElem.mp hg
    exact (hgaps.get hi (hgaps.length_eq ▸ hi)).kind
  rw [← map_gapsFrom p.tree 0 (isGap_of_isNode hnode)]
  refine List.map_congr_left fun g hg => ?_
  rw [hkind g hg]

end TemplateMarkup
