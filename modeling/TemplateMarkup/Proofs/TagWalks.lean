import TemplateMarkup.Proofs.Contexts
import TemplateMarkup.Proofs.Schema

/-! # The states of a walk over tags

A walk is at rest between two tags. `Visits` relates a state to those that the walk
comes to from there, and `TagStep` says what one tag can do to the open tags, so an
invariant of the open tags needs one look at each of these ways. -/

namespace TemplateMarkup

namespace Cursor

variable {σ : Type} {code : EmbeddedCode σ} {c d : Cursor σ} {tags : OpenTags} {t : OpenTag}
  {name : List Char}

/-! ## One tag -/

/-- A start tag comes next. -/
structure AtStartTag (c : Cursor σ) : Prop where
  next_ne : c.nth 1 ≠ .endOfInput
  plain : c.atSpecialTag = false
  no_slash : c.nth 1 ≠ .slash

/-- An end tag comes next. -/
structure AtEndTag (c : Cursor σ) : Prop where
  slash : c.nth 1 = .slash
  behind_ne : c.nth 2 ≠ .endOfInput

theorem AtStartTag.tag_eq (h : c.AtStartTag) (code : EmbeddedCode σ) (tags : OpenTags) :
    c.tag code tags = c.startTag code tags := by
  rw [tag, if_neg h.next_ne, h.plain, if_neg Bool.false_ne_true, if_neg h.no_slash]

theorem AtEndTag.tag_eq (h : c.AtEndTag) (code : EmbeddedCode σ) (tags : OpenTags) :
    c.tag code tags = c.endTag tags := by
  rw [tag, h.slash, if_neg (by decide), if_neg (by simp [atSpecialTag, h.slash]), if_pos rfl]

theorem keepsTags_context (x : Context) : KeepsTags fun (c : Cursor σ) _ => c.context = x where
  report problem range h := (context_report _ problem range).trans h
  close h := (context_close _ _).trans h

@[simp] theorem context_removeMatching (name : List Char) (endTag : Nat) (tags : OpenTags)
    (c : Cursor σ) : (OpenTags.removeMatching name endTag tags c).2.2.context = c.context := by
  have hsame : (fun (d : Cursor σ) (_ : OpenTags) => d.context = c.context) c tags := rfl
  exact (keepsTags_context c.context).removeMatching hsame rfl

theorem pending_close (t : OpenTag) (h : c.pending = []) : (t.close c).pending = [] := by
  unfold OpenTag.close
  split
  · exact pending_complete ..
  · exact h

@[simp] theorem pending_report (c : Cursor σ) (problem : Problem) (range : Range) :
    (c.report problem range).pending = c.pending := by
  unfold Cursor.report
  dsimp only
  split <;> rfl

theorem keepsTags_pending : KeepsTags fun (c : Cursor σ) _ => c.pending = [] where
  report problem range h := by rw [pending_report, h]
  close h := pending_close _ h

/-- What a tag at the cursor can do to the open tags. -/
inductive TagStep (c : Cursor σ) (tags : OpenTags) : OpenTags → Prop
  | same : TagStep c tags tags
  /-- An end tag takes off the innermost tags. -/
  | ended {t? : Option OpenTag} {rest : OpenTags} {d : Cursor σ} :
      OpenTags.removeMatching (c.tagNameAt 2) c.offset tags c = (t?, rest, d) → TagStep c tags rest
  /-- An outermost start tag of the text element opens without a node. -/
  | text : c.AtStartTag → tags = [] → c.context.options.isTextTag (c.tagNameAt 1) = true →
      TagStep c tags [⟨c.tagNameAt 1, c.offset, none⟩]
  /-- Any other start tag opens with one, unless it is void. -/
  | opened : c.AtStartTag → ¬ (tags = [] ∧ c.context.options.isTextTag (c.tagNameAt 1) = true) →
      c.context.options.isVoidElement (c.tagNameAt 1) = false →
      TagStep c tags (⟨c.tagNameAt 1, c.offset, some c.start.1⟩ :: tags)

/-- A property of the cursor that reading a tag behind its name keeps. -/
structure KeepsTag (code : EmbeddedCode σ) (K : Cursor σ → Prop) : Prop where
  attributes {c : Cursor σ} : K c → K (c.attributes code).2
  eat {c : Cursor σ} : K c → K (c.eat .slash).2
  closeAngle {c : Cursor σ} (name : List Char) (range : Range) : K c → K (c.closeAngle name range).2
  flush {c : Cursor σ} : K c → K (c.flush .literal)
  voidEndTag {c : Cursor σ} (name : List Char) : K c → K (c.voidEndTag name)
  scriptBody {c : Cursor σ} (name : List Char) : K c → K (c.scriptBody code name)

/-- A start tag closes its node again, or its name is not void and it stays open. -/
theorem restOfStartTag_cases {K : Cursor σ → Prop} (hK : KeepsTag code K) (h : K c) (tags : OpenTags)
    (m : Marker) (name : List Char) (start : Nat) :
    ∃ d complete, K d ∧
      (c.restOfStartTag code tags m name start = ⟨d.complete m .tagBlock, tags, complete⟩ ∨
        d.context.options.isVoidElement name = false ∧
        c.restOfStartTag code tags m name start = ⟨d, ⟨name, start, some m⟩ :: tags, complete⟩) := by
  have hattributes := hK.attributes h
  have hclose : K (c.throughHead code name start).2 := hK.closeAngle name _ (hK.eat hattributes)
  have hflush : K (c.behindHead code name start) := hK.flush hclose
  have hends := restOfStartTag_ends code tags m name start c
  generalize c.restOfStartTag code tags m name start = w at hends ⊢
  cases hends with
  | cutOff => exact ⟨_, _, hattributes, .inl rfl⟩
  | unclosed => exact ⟨_, _, hclose, .inl rfl⟩
  | selfClosing => exact ⟨_, _, hflush, .inl rfl⟩
  | void => exact ⟨_, _, hK.voidEndTag name hflush, .inl rfl⟩
  | script => exact ⟨_, _, hK.scriptBody name hflush, .inl rfl⟩
  | opened _ hvoid => exact ⟨_, _, hflush, .inr ⟨hvoid, rfl⟩⟩

theorem keepsTag_options (hk : code.KeepsOptions) (o : Options) :
    KeepsTag code fun c => c.context.options = o where
  attributes h := (options_attributes hk _).trans h
  eat h := by rw [context_eat, h]
  closeAngle name range h := by rw [context_closeAngle, h]
  flush h := by rw [context_flush, h]
  voidEndTag name h := by rw [context_voidEndTag, h]
  scriptBody name h := (options_scriptBody hk name _).trans h

/-- A tag of the text element is read: its tokens are accepted, nothing goes into the tree yet, and
at most its attributes are reported. -/
structure Collects (c d : Cursor σ) : Prop where
  context : d.context = c.context
  shows {fs : List (List Tree)} : Shows c fs → Shows d fs
  pending_ne : c.pending ≠ [] → d.pending ≠ []
  reports : ∀ x ∈ d.diagnostics.toList, x ∈ c.diagnostics.toList ∨ x.problem = .textTagHasAttributes

namespace Collects

theorem refl (c : Cursor σ) : Collects c c := ⟨rfl, id, id, fun _ => .inl⟩

theorem moves {e : Cursor σ} (h : Collects c d) (hm : Moves d e) (ha : Accepts d e) :
    Collects c e where
  context := hm.context.trans h.context
  shows hs := hm.shows (h.shows hs)
  pending_ne hne := ha.pending_ne_nil (h.pending_ne hne)
  reports x hx := h.reports x (by rwa [hm.diagnostics] at hx)

theorem bumpN (h : Collects c d) (n : Nat) : Collects c (d.bumpN n) :=
  h.moves (.bumpN d n) (.bumpN d n)

theorem eat (h : Collects c d) (kind : Kind) : Collects c (d.eat kind).2 :=
  h.moves (.eat d kind) (.eat d kind)

theorem report (h : Collects c d) (range : Range) :
    Collects c (d.report .textTagHasAttributes range) where
  context := (context_report d _ _).trans h.context
  shows hs := (h.shows hs).report _ _
  pending_ne hne := by
    rw [pending_report]
    exact h.pending_ne hne
  reports x hx := by
    rw [diagnostics_report, Array.toList_push, List.mem_append, List.mem_singleton] at hx
    rcases hx with hx | rfl
    · exact h.reports x hx
    · exact .inr rfl

theorem recover (h : Collects c d) (range : Range) :
    Collects c (d.report .textTagHasAttributes range).recoverTextTag :=
  ((h.report range).bumpN _).eat _

theorem textTag {range : Range} {e : Cursor σ} (h : Collects c d) (hends : TextTagEnds range d e) :
    Collects c e := by
  cases hends with
  | closed => exact h.bumpN _
  | reported => exact h.recover range

end Collects

/-- An outermost start tag of the text element is flushed at once. -/
theorem textStartTag_cases (c : Cursor σ) (tags : OpenTags) (name : List Char) :
    ∃ d, Collects c.bump d ∧ (c.textStartTag tags name).cursor = d.flush .markupTransition ∧
      ((c.textStartTag tags name).openTags = tags ∨
        (c.textStartTag tags name).openTags = ⟨name, c.offset, none⟩ :: tags) := by
  have hname : Collects c.bump c.bump.eatName := (Collects.refl _).bumpN _
  have hends := textStartTag_ends tags name c
  generalize c.textStartTag tags name = w at hends ⊢
  cases hends with
  | selfClosing _ hread => exact ⟨_, (hname.bumpN _).textTag hread, rfl, .inl rfl⟩
  | opened _ hread => exact ⟨_, hname.textTag hread, rfl, .inr rfl⟩

/-- And so is the end tag. -/
theorem textEndTag_cases (c : Cursor σ) (name : List Char) :
    ∃ d, Collects c.bump d ∧ c.textEndTag name = d.flush .markupTransition := by
  have hread : Collects c.bump ((c.bumpN 2).eatName.eat .closeAngle).2 :=
    (((Collects.refl _).bumpN 1).bumpN _).eat _
  unfold textEndTag
  dsimp only
  split
  · exact ⟨_, hread, rfl⟩
  · exact ⟨_, hread.recover _, rfl⟩

theorem context_endTagBlock (c : Cursor σ) (name : List Char) :
    (c.endTagBlock name).2.context = c.context := by
  unfold endTagBlock
  simp [acceptUntil]

/-- An end tag. -/
theorem endTag_step (c : Cursor σ) (tags : OpenTags) :
    (c.endTag tags).cursor.context = c.context ∧ TagStep c tags (c.endTag tags).openTags := by
  have hcontext := context_removeMatching (c.tagNameAt 2) c.offset tags c
  have hends := endTag_ends tags c
  generalize c.endTag tags = w at hends ⊢
  cases hends with
  | bare => exact ⟨by simp, .same⟩
  | unmatched _ hr =>
    rw [hr] at hcontext
    exact ⟨by rw [context_endTagBlock, hcontext], .ended hr⟩
  | @text t d _ hr =>
    rw [hr] at hcontext
    obtain ⟨e, he, hread⟩ := textEndTag_cases (t.close d) (c.tagNameAt 2)
    refine ⟨?_, .ended hr⟩
    rw [hread, context_flush, he.context, context_bump, context_close, hcontext]
  | element _ hr =>
    rw [hr] at hcontext
    exact ⟨by rw [context_close, context_endTagBlock, hcontext], .ended hr⟩

/-- One tag, whatever it is. -/
theorem tag_step (hk : code.KeepsOptions) (c : Cursor σ) (tags : OpenTags) :
    (c.tag code tags).cursor.context.options = c.context.options ∧
      TagStep c tags (c.tag code tags).openTags := by
  unfold tag
  split
  · refine ⟨?_, .same⟩
    unfold loneAngle
    dsimp only
    split <;> simp
  · split
    · exact ⟨options_specialTag hk c, .same⟩
    · split
      · obtain ⟨hcontext, hstep⟩ := endTag_step c tags
        exact ⟨congrArg Context.options hcontext, hstep⟩
      · next hnext hspecial hslash =>
        have hstart : c.AtStartTag := ⟨hnext, by simpa using hspecial, hslash⟩
        unfold startTag
        dsimp only
        split
        · next htext =>
          obtain rfl : tags = [] := by simpa using htext.1
          obtain ⟨d, hd, hread, hopen⟩ := textStartTag_cases c [] (c.tagNameAt 1)
          refine ⟨by rw [hread, context_flush, hd.context, context_bump], ?_⟩
          rcases hopen with hopen | hopen
          · rw [hopen]
            exact .same
          · rw [hopen]
            exact .text hstart rfl htext.2
        · next htext =>
          have hname : c.start.2.bump.bangEscape.eatName.context = c.context := by simp
          obtain ⟨d, complete, hoptions, hopen⟩ := restOfStartTag_cases
            (keepsTag_options hk c.context.options) (congrArg Context.options hname) tags c.start.1
            (c.tagNameAt 1) c.offset
          rcases hopen with hopen | ⟨hvoid, hopen⟩
          · rw [hopen]
            exact ⟨by rw [context_complete, hoptions], .same⟩
          · rw [hopen]
            rw [hoptions] at hvoid
            exact ⟨hoptions, .opened hstart (by simpa using htext) hvoid⟩

end Cursor

/-! ## The whole walk -/

namespace TagWalk

variable {σ : Type} {code : EmbeddedCode σ} {w v : TagWalk σ}

/-- The cursor in front of the next tag, or at the end of the source. -/
def next (code : EmbeddedCode σ) (w : TagWalk σ) : Cursor σ :=
  (w.cursor.skipTo code .openAngle).flush .literal

/-- The state behind the next tag. -/
def step (code : EmbeddedCode σ) (w : TagWalk σ) : TagWalk σ := (w.next code).tag code w.openTags

/-- The states that a walk comes to from one on. It goes on as long as a tag is open. -/
inductive Visits (code : EmbeddedCode σ) (w : TagWalk σ) : TagWalk σ → Prop
  | start : Visits code w w
  | step {v : TagWalk σ} : Visits code w v → v = w ∨ v.openTags ≠ [] →
      (v.next code).atEnd = false → Visits code w (v.step code)

/-- The walk ends in a state that it comes to, or where it looks for a tag there. -/
theorem visits_tagsFrom (code : EmbeddedCode σ) (bound : Nat) (w : TagWalk σ) :
    ∃ v, Visits code w v ∧ (Cursor.tagsFrom code bound w = v ∨
      Cursor.tagsFrom code bound w = { v with cursor := v.next code } ∨
      Cursor.tagsFrom code bound w = { v with cursor := v.cursor.fail .stalled }) := by
  have hrun (bound : Nat) {v : TagWalk σ} (hv : Visits code w v) (hopen : v = w ∨ v.openTags ≠ []) :
      ∃ u, Visits code w u ∧ (Cursor.tagsFrom code bound v = u ∨
        Cursor.tagsFrom code bound v = { u with cursor := u.next code } ∨
        Cursor.tagsFrom code bound v = { u with cursor := u.cursor.fail .stalled }) := by
    induction bound generalizing v with
    | zero => exact ⟨v, hv, .inr (.inr rfl)⟩
    | succ bound ih =>
      unfold Cursor.tagsFrom
      dsimp only
      split
      · exact ⟨v, hv, .inr (.inl rfl)⟩
      · next hend =>
        have hstep := hv.step hopen (by simpa [next] using hend)
        split
        · exact ⟨v.step code, hstep, .inl rfl⟩
        · next htags => exact ih hstep (.inr (by simpa [TagWalk.step, next] using htags))
  exact hrun bound .start (.inl rfl)

theorem options_next (hk : code.KeepsOptions) (w : TagWalk σ) :
    (w.next code).context.options = w.cursor.context.options := by
  rw [next, Cursor.context_flush, Cursor.options_skipTo hk]

theorem Visits.options (hk : code.KeepsOptions) (h : Visits code w v) :
    v.cursor.context.options = w.cursor.context.options := by
  induction h with
  | start => rfl
  | @step v _ _ _ ih =>
    rw [TagWalk.step, (Cursor.tag_step hk (v.next code) v.openTags).1, options_next hk, ih]

/-- What every tag keeps of the open tags holds of those in every state of a walk. -/
theorem Visits.openTags (hk : code.KeepsOptions) {P : OpenTags → Prop}
    (hP : ∀ {c : Cursor σ} {tags rest : OpenTags}, c.context.options = w.cursor.context.options →
      c.TagStep tags rest → P tags → P rest) (h : Visits code w v) (hw : P w.openTags) :
    P v.openTags := by
  induction h with
  | start => exact hw
  | @step v hv _ _ ih =>
    exact hP ((options_next hk v).trans (hv.options hk)) (Cursor.tag_step hk _ _).2 ih

end TagWalk

end TemplateMarkup
