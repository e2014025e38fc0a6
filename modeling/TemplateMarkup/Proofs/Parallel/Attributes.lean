import TemplateMarkup.Proofs.Parallel.Scans
import TemplateMarkup.Proofs.Tags

/-! # Comments and attributes of two parses side by side

Whether a comment is well formed is a matter of kinds, but for one hyphen. The
attributes that the two parses read are spelled by tokens that are alike, so they
say the same about a script. -/

namespace TemplateMarkup

/-! ## Comments -/

namespace Likeness.Alikes

variable {l : Likeness} {ts us : List Token}

theorem opensComment (h : l.Alikes ts us) : opensComment us = opensComment ts := by
  cases h with
  | nil => rfl
  | cons h₁ h =>
    cases h with
    | nil => rfl
    | cons h₂ h =>
      cases h with
      | nil => rfl
      | cons h₃ => simp only [TemplateMarkup.opensComment, h₁.kind, h₂.kind, h₃.kind]

theorem breaksComment (h : l.Alikes ts us) : breaksComment us = breaksComment ts := by
  cases h with
  | nil => rfl
  | cons h₁ h =>
    cases h with
    | nil => rfl
    | cons h₂ h =>
      cases h with
      | nil => rfl
      | cons h₃ => simp only [TemplateMarkup.breaksComment, h₁.kind, h₂.kind, h₃.kind]

theorem endsComment (h : l.Alikes ts us) : endsComment us = endsComment ts := by
  cases h with
  | nil => rfl
  | @cons t u _ _ hhead hrest =>
    have hhyphen : u.kind = .text → (u.text = ['-'] ↔ t.text = ['-']) := fun hk =>
      (hhead.text (by rw [← hhead.kind, hk]; decide)).1.eq_singleton_iff
        (Text.apply_toLower (· == '-') (by decide))
    unfold TemplateMarkup.endsComment
    dsimp only
    rw [← hhead.kind, kindAt hrest]
    split
    · rfl
    · by_cases hk : u.kind = .text
      · simp only [hk, hhyphen hk]
      · simp only [hk, false_and]

theorem commentCloser? (h : l.Alikes ts us) : commentCloser? us = commentCloser? ts := by
  cases h with
  | nil => rfl
  | cons hhead hrest => simp only [TemplateMarkup.commentCloser?, hhead.kind, endsComment hrest]

theorem closesComment (h : l.Alikes ts us) : closesComment us = closesComment ts := by
  induction h with
  | nil => rfl
  | cons hhead hrest ih =>
    have hall := List.Forall₂.cons hhead hrest
    simp only [TemplateMarkup.closesComment, opensComment hall, commentCloser? hall,
      breaksComment hall, ih]

theorem commentAhead (h : l.Alikes ts us) : commentAhead us = commentAhead ts := by
  rw [TemplateMarkup.commentAhead, TemplateMarkup.commentAhead, h.opensComment,
    (h.drop 3).endsComment, (h.drop 3).closesComment]

end Likeness.Alikes

namespace Cursor.Parallel

variable {σ : Type} {k : Comparison} {ms : List (Marker × Marker)} {c d : Cursor σ}
  {code : EmbeddedCode σ}

theorem commentBodyFrom (ha : code.Agrees k) {bound bound' : Nat}
    (hc : (Cursor.commentBodyFrom code bound c).2.fault = none)
    (hd : (Cursor.commentBodyFrom code bound' d).2.fault = none) (h : Parallel k ms c d) :
    (Cursor.commentBodyFrom code bound' d).1 = (Cursor.commentBodyFrom code bound c).1 ∧
      Parallel k ms (Cursor.commentBodyFrom code bound c).2
        (Cursor.commentBodyFrom code bound' d).2 := by
  induction bound generalizing bound' c d with
  | zero => simp [Cursor.commentBodyFrom, fail] at hc
  | succ bound ih =>
    cases bound' with
    | zero => simp [Cursor.commentBodyFrom, fail] at hd
    | succ bound' =>
      have hs := h.skipTo ha .doubleHyphen
      revert hc hd
      unfold Cursor.commentBodyFrom
      dsimp only
      rw [hs.atEnd, hs.ahead.commentCloser?]
      split
      · exact fun _ _ => ⟨rfl, hs⟩
      · split
        · exact fun _ _ => ⟨rfl, ((hs.flush .literal).bumpN _).flush .literal⟩
        · exact fun hc hd => ih hc hd hs.bump

theorem htmlComment (ha : code.Agrees k) (h : Parallel k ms c d) :
    (d.htmlComment code).1 = (c.htmlComment code).1 ∧
      Parallel k ms (c.htmlComment code).2 (d.htmlComment code).2 := by
  have hopen := (h.start.bumpN 3).flush .literal
  have hbody := hopen.commentBodyFrom ha
    ((Reaches.refl hopen.left).commentBodyFrom ha.lawful (Nat.lt_succ_self _) trivial).sound.fault
    ((Reaches.refl hopen.right).commentBodyFrom ha.lawful (Nat.lt_succ_self _) trivial).sound.fault
  exact ⟨hbody.1, hbody.2.complete .commentBlock⟩

theorem atCData (h : Parallel k ms c d) : d.atCData = c.atCData := by
  unfold Cursor.atCData
  rw [h.at?, h.nth, h.nth]
  by_cases htext : c.nth 1 = .text
  · have hsame := (h.nthText (n := 1) (by rw [htext]; decide)).sameIgnoringCase
      (.refl "cdata".toList)
    rw [hsame]
  · have hno : (c.nth 1 == Kind.text) = false := by simpa using htext
    simp [hno]

theorem bangTag (ha : code.Agrees k) (h : Parallel k ms c d) :
    (d.bangTag code).1 = (c.bangTag code).1 ∧
      Parallel k ms (c.bangTag code).2 (d.bangTag code).2 := by
  have hopen := h.bumpN 2
  unfold Cursor.bangTag
  dsimp only
  rw [h.ahead.commentAhead, hopen.atCData]
  split
  · exact h.htmlComment ha
  · split
    · have hthrough := (hopen.bumpN 3).acceptThrough ha .closeBracket [.closeBracket, .closeAngle]
      exact ⟨hthrough.1, hthrough.2.flush .literal⟩
    · have hthrough := hopen.acceptThrough ha .closeAngle []
      exact ⟨hthrough.1, hthrough.2.flush .literal⟩

theorem instruction (ha : code.Agrees k) (h : Parallel k ms c d) :
    (d.instruction code).1 = (c.instruction code).1 ∧
      Parallel k ms (c.instruction code).2 (d.instruction code).2 := by
  have hthrough := (h.bumpN 2).acceptThrough ha .questionMark [.closeAngle]
  exact ⟨hthrough.1, hthrough.2.flush .literal⟩

theorem specialTag (ha : code.Agrees k) (h : Parallel k ms c d) :
    (d.specialTag code).1 = (c.specialTag code).1 ∧
      Parallel k ms (c.specialTag code).2 (d.specialTag code).2 := by
  unfold Cursor.specialTag
  rw [h.nth]
  split
  · exact h.bangTag ha
  · exact h.instruction ha

end Cursor.Parallel

/-! ## Attributes -/

namespace Comparison

variable {k : Comparison}

/-- Texts spelled by tokens that are alike. -/
def Spelled (k : Comparison) (a b : List Char) : Prop :=
  ∃ ts us, k.Alikes ts us ∧ a = Token.textOf ts ∧ b = Token.textOf us

/-- Attributes spelled by tokens that are alike. -/
structure Attributes (k : Comparison) (a b : Attribute) : Prop where
  name : k.Spelled a.name b.name
  value : Option.Rel k.Spelled a.value? b.value?

/-- Such attributes say the same about a script. -/
theorem scriptHoldsMarkup_eq {as bs : List Attribute} (h : List.Forall₂ k.Attributes as bs) :
    scriptHoldsMarkup k.otherOptions bs = scriptHoldsMarkup k.options as := by
  have hname {a b : Attribute} (hab : k.Attributes a b) :
      Text.sameIgnoringCase b.name "type".toList = Text.sameIgnoringCase a.name "type".toList := by
    obtain ⟨ts, us, hlike, ha, hb⟩ := hab.name
    rw [ha, hb]
    exact hlike.sameIgnoringCase (by decide)
  unfold scriptHoldsMarkup
  induction h with
  | nil => rfl
  | @cons a b as bs hab _ ih =>
    rw [List.find?_cons, List.find?_cons, hname hab]
    cases Text.sameIgnoringCase a.name "type".toList with
    | false => exact ih
    | true =>
      have hvalue := hab.value
      dsimp only
      generalize a.value? = v, b.value? = w at hvalue
      cases hvalue with
      | none => rfl
      | some hvalue =>
        obtain ⟨ts, us, hlike, rfl, rfl⟩ := hvalue
        exact k.scriptType hlike

end Comparison

namespace Cursor.Parallel

variable {σ : Type} {k : Comparison} {ms : List (Marker × Marker)} {c d : Cursor σ}
  {code : EmbeddedCode σ}

theorem atBareValueEnd_kindTest : KindTest (atBareValueEnd : Cursor σ → Bool) := fun _ _ h => by
  simp only [Cursor.atBareValueEnd, Cursor.current, h]

theorem attributeValue (ha : code.Agrees k) (h : Parallel k ms c d) :
    k.Spelled (c.attributeValue code).1 (d.attributeValue code).1 ∧
      Parallel k ms (c.attributeValue code).2 (d.attributeValue code).2 := by
  unfold Cursor.attributeValue
  dsimp only
  rw [h.current]
  split
  · have hvalue := h.bump.start.skipTo ha c.current
    rw [h.bump.start.position, hvalue.position]
    exact ⟨hvalue.textBetween _ _, ((hvalue.complete .attributeValue).eat c.current).2⟩
  · have hvalue := h.start.skipUntil ha atBareValueEnd_kindTest
    rw [h.start.position, hvalue.position]
    exact ⟨hvalue.textBetween _ _, hvalue.complete .attributeValue⟩

theorem readAttribute (ha : code.Agrees k) (h : Parallel k ms c d) :
    k.Attributes (c.readAttribute code).1 (d.readAttribute code).1 ∧
      Parallel k ms (c.readAttribute code).2 (d.readAttribute code).2 := by
  have hblank := k.blind_kind (· == .whitespace)
  have hname := h.start.bumpWhile (k.blind_kind (!·.endsAttributeName))
  unfold Cursor.readAttribute
  dsimp only
  rw [h.start.position, hname.position, hname.runLength hblank]
  generalize (c.start.2.bumpWhile _).runLength _ 0 = blanks
  rw [hname.nth]
  split
  · have hvalue := ((hname.bumpN (blanks + 1)).bumpWhile hblank).attributeValue ha
    exact ⟨⟨hname.textBetween _ _, .some hvalue.1⟩, hvalue.2.complete .attributeBlock⟩
  · exact ⟨⟨hname.textBetween _ _, .none⟩, hname.complete .attributeBlock⟩

theorem attributesFrom (ha : code.Agrees k) {bound bound' : Nat}
    (hc : (Cursor.attributesFrom code bound c).2.fault = none)
    (hd : (Cursor.attributesFrom code bound' d).2.fault = none) (h : Parallel k ms c d) :
    List.Forall₂ k.Attributes (Cursor.attributesFrom code bound c).1
        (Cursor.attributesFrom code bound' d).1 ∧
      Parallel k ms (Cursor.attributesFrom code bound c).2
        (Cursor.attributesFrom code bound' d).2 := by
  induction bound generalizing bound' c d with
  | zero => simp [Cursor.attributesFrom, fail] at hc
  | succ bound ih =>
    cases bound' with
    | zero => simp [Cursor.attributesFrom, fail] at hd
    | succ bound' =>
      have hspacing := h.bumpWhile (k.blind_kind Kind.isTrivia)
      revert hc hd
      unfold Cursor.attributesFrom
      dsimp only
      rw [hspacing.current, hspacing.nth]
      split
      iterate 3 exact fun _ _ => ⟨.nil, hspacing⟩
      · split
        · exact fun _ _ => ⟨.nil, hspacing⟩
        · exact fun hc hd => ih hc hd hspacing.bump
      · exact fun hc hd => ih hc hd ((hspacing.flush .literal).codeBlock ha)
      · exact fun hc hd => ih hc hd ((hspacing.flush .literal).codeComment ha)
      iterate 3 exact fun hc hd => ih hc hd hspacing.bump
      · intro hc hd
        have hone := hspacing.readAttribute ha
        have hmore := ih hc hd hone.2
        exact ⟨.cons hone.1 hmore.1, hmore.2⟩

theorem attributes (ha : code.Agrees k) (h : Parallel k ms c d) :
    List.Forall₂ k.Attributes (c.attributes code).1 (d.attributes code).1 ∧
      Parallel k ms (c.attributes code).2 (d.attributes code).2 := by
  have hd : d.held = [] := List.forall₂_nil_left_iff.mp (h.none_held ▸ h.held)
  exact h.attributesFrom ha
    ((Reaches.refl h.left).attributes ha.lawful h.none_held trivial).sound.fault
    ((Reaches.refl h.right).attributes ha.lawful hd trivial).sound.fault

end Cursor.Parallel

end TemplateMarkup
