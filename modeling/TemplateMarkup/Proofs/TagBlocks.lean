import TemplateMarkup.Options
import TemplateMarkup.Proofs.Pieces

/-! # Tag blocks that are what they should be

A tag block that begins with a start tag is well formed if the tag has its own
`>` and, unless it closes itself or is void, the last tag in the block is its
end tag. Two kinds of malformed blocks can be told from the block and the text
behind it alone: a tag that the `<` of another one cuts off, and a script that
is open at the end of the source. -/

namespace TemplateMarkup

/-- A tag block: what stands in it and the source text behind it. -/
structure TagBlock where
  pieces : List Piece
  after : List Char

namespace Piece

mutual

/-- The tag blocks of a piece that the text comes after, outer ones first. -/
def tagBlocks (after : List Char) : Piece → List TagBlock
  | leaf _ => []
  | part kind ps => (if kind = .tagBlock then [⟨ps, after⟩] else []) ++ tagBlocksOf after ps

def tagBlocksOf (after : List Char) : List Piece → List TagBlock
  | [] => []
  | p :: ps => p.tagBlocks (textOf ps ++ after) ++ tagBlocksOf after ps

end

/-- Whether the piece is a token of the kind. An empty leaf stands for a token that is missing. -/
def isToken (kind : Kind) : Piece → Bool
  | leaf t => t.kind == kind && !t.text.isEmpty
  | part .. => false

def isAngle (p : Piece) : Bool := p.isToken .openAngle || p.isToken .closeAngle

/-- The text of the text tokens that come first. -/
def textRun : List Piece → List Char
  | leaf t :: ps => if t.kind = .text then t.text ++ textRun ps else []
  | _ => []

/-- Whether a text token comes first. -/
def beginsText : List Piece → Bool
  | leaf t :: _ => t.kind == .text
  | _ => false

/-- The tag name that comes first, with the `!` before it. -/
def tagName : List Piece → List Char
  | part .metacode _ :: ps => if beginsText ps then '!' :: textRun ps else []
  | ps => textRun ps

/-- What stands in the tag blocks right below. -/
def innerTags (ps : List Piece) : List (List Piece) :=
  ps.filterMap fun
    | part .tagBlock inner => some inner
    | _ => none

/-- Whether this is an end tag with its `>`, for an element of the name. -/
def isEndTag (name : List Char) : List Piece → Bool
  | lt :: slash :: ps => lt.isToken .openAngle && slash.isToken .slash &&
      ps.getLast?.any (·.isToken .closeAngle) && Text.sameIgnoringCase (tagName ps) name
  | _ => false

end Piece

namespace TagBlock

open Piece

/-- Whether the block begins with a start tag. -/
def isElement (b : TagBlock) : Bool :=
  match b.pieces with
  | lt :: ps => lt.isToken .openAngle && !ps.head?.any (·.isToken .slash)
  | [] => false

/-- What stands between the `<` of the first tag and the next angle. -/
def head (b : TagBlock) : List Piece := (b.pieces.drop 1).takeWhile (!·.isAngle)

/-- Whether the first tag has its own `>`. -/
def closed (b : TagBlock) : Bool :=
  ((b.pieces.drop 1).dropWhile (!·.isAngle)).head?.any (·.isToken .closeAngle)

/-- The name of the first tag. -/
def name (b : TagBlock) : List Char := tagName b.head

/-- Whether the first tag closes itself. -/
def selfClosing (b : TagBlock) : Bool := b.head.getLast?.any (·.isToken .slash)

/-- Whether the last tag right below is the end tag of the first one. -/
def ended (b : TagBlock) : Bool := (innerTags b.pieces).getLast?.any (isEndTag b.name)

/-- The first tag has its `>`, and its element has an end tag if it needs one. -/
def WellFormed (b : TagBlock) : Prop :=
  b.closed ∧ (b.selfClosing ∨ ({} : Options).isVoidElement b.name ∨ b.ended)

/-- The first tag has no `>`, and the `<` of another tag comes next. -/
def CutOff (b : TagBlock) : Prop := b.closed = false ∧ b.after.head? = some '<'

/-- The first tag begins a script without any tag in it, and the source ends with the block. -/
def OpenScript (b : TagBlock) : Prop :=
  b.closed ∧ b.selfClosing = false ∧ ({} : Options).isScriptTag b.name ∧
    innerTags b.pieces = [] ∧ b.after = []

instance (b : TagBlock) : Decidable b.WellFormed := inferInstanceAs (Decidable (_ ∧ _))

instance (b : TagBlock) : Decidable b.CutOff := inferInstanceAs (Decidable (_ ∧ _))

instance (b : TagBlock) : Decidable b.OpenScript :=
  decidable_of_iff (b.closed ∧ b.selfClosing = false ∧ ({} : Options).isScriptTag b.name ∧
    (innerTags b.pieces).isEmpty ∧ b.after = []) (by simp [OpenScript])

/-- An element is well formed or malformed in one of the two ways. -/
def Settled (b : TagBlock) : Prop := b.isElement → b.WellFormed ∨ b.CutOff ∨ b.OpenScript

variable {b : TagBlock} {lt gt : Piece} {ps : List Piece} {after : List Char}

theorem not_void_of_script {name : List Char} (h : ({} : Options).isScriptTag name = true) :
    ({} : Options).isVoidElement name = false := by
  have hname : Text.foldCase name = Text.foldCase "script".toList := Text.sameIgnoringCase_iff.mp h
  simp only [Options.isVoidElement, Text.sameIgnoringCase, hname]
  decide

/-- The ways to be malformed exclude each other and being well formed. -/
theorem Settled.wellFormed_iff (h : b.Settled) (he : b.isElement) :
    b.WellFormed ↔ ¬ b.CutOff ∧ ¬ b.OpenScript := by
  constructor
  · rintro ⟨hclosed, hended⟩
    refine ⟨fun hcut => Bool.noConfusion (hclosed.symm.trans hcut.1), ?_⟩
    rintro ⟨-, hslash, hscript, hinner, -⟩
    rcases hended with hs | hv | hl
    · simp [hslash] at hs
    · simp [not_void_of_script hscript] at hv
    · simp [ended, hinner] at hl
  · rintro ⟨hcut, hscript⟩
    rcases h he with hwell | hcut' | hscript'
    · exact hwell
    · exact absurd hcut' hcut
    · exact absurd hscript' hscript

/-- The pieces up to the first angle are the head. -/
theorem head_eq (lt : Piece) (content : List Piece) (after : List Char)
    (hps : ∀ p ∈ ps, p.isAngle = false) (hgt : gt.isToken .closeAngle = true) :
    head ⟨lt :: (ps ++ gt :: content), after⟩ = ps ∧
      closed ⟨lt :: (ps ++ gt :: content), after⟩ = true := by
  have hpos : ∀ p ∈ ps, (!p.isAngle) = true := by simpa using hps
  have hangle : gt.isAngle = true := by simp [isAngle, hgt]
  constructor
  · simp [head, List.takeWhile_append_of_pos hpos, hangle]
  · simp [closed, List.dropWhile_append_of_pos hpos, hangle, hgt]

theorem closed_eq_false (hps : ∀ p ∈ ps, p.isAngle = false) :
    closed ⟨lt :: ps, after⟩ = false := by
  have hpos : ∀ p ∈ ps, (!p.isAngle) = true := by simpa using hps
  have hnone : ps.dropWhile (!·.isAngle) = [] := by
    rw [← List.append_nil ps, List.dropWhile_append_of_pos hpos, List.dropWhile_nil]
  simp [closed, hnone]

end TagBlock

namespace Piece

variable {a b ps qs : List Piece} {p q : Piece} {ts : List Token} {t : Token} {kind : Kind}
  {after name : List Char}

/-! ## Pieces without tag blocks -/

/-- No tag block stands in the piece. -/
def Free (p : Piece) : Prop := ∀ after, p.tagBlocks after = []

theorem free_leaf (t : Token) : (leaf t).Free := fun _ => rfl

theorem tagBlocksOf_append (after : List Char) (a b : List Piece) : tagBlocksOf after (a ++ b) =
    tagBlocksOf (textOf b ++ after) a ++ tagBlocksOf after b := by
  induction a with
  | nil => rfl
  | cons p a ih => simp [tagBlocksOf, ih]

theorem tagBlocksOf_free (h : ∀ p ∈ ps, p.Free) (after : List Char) : tagBlocksOf after ps = [] := by
  induction ps with
  | nil => rfl
  | cons p ps ih =>
    have hp := h p (List.mem_cons_self ..)
    rw [tagBlocksOf, hp, ih fun q hq => h q (List.mem_cons_of_mem p hq)]
    rfl

theorem free_part (hk : kind ≠ .tagBlock) (h : ∀ p ∈ ps, p.Free) : (part kind ps).Free := by
  intro after
  rw [tagBlocks, if_neg hk, tagBlocksOf_free h]
  rfl

theorem innerTags_append (a b : List Piece) : innerTags (a ++ b) = innerTags a ++ innerTags b :=
  List.filterMap_append

theorem innerTags_free (h : ∀ p ∈ ps, p.Free) : innerTags ps = [] := by
  refine List.filterMap_eq_nil_iff.mpr fun p hp => ?_
  cases p with
  | leaf t => rfl
  | part kind ps =>
    by_cases hk : kind = .tagBlock
    · have hfree := h _ hp []
      simp [tagBlocks, hk] at hfree
    · cases kind <;> first | rfl | exact absurd rfl hk

/-! ## Settled pieces -/

/-- Every tag block among the pieces is settled. -/
def AllSettled (after : List Char) (ps : List Piece) : Prop := ∀ b ∈ tagBlocksOf after ps, b.Settled

theorem allSettled_free (h : ∀ p ∈ ps, p.Free) : AllSettled after ps := by
  rw [AllSettled, tagBlocksOf_free h]
  exact fun b hb => absurd hb List.not_mem_nil

theorem allSettled_append : AllSettled after (a ++ b) ↔
    AllSettled (textOf b ++ after) a ∧ AllSettled after b := by
  simp [AllSettled, tagBlocksOf_append, or_imp, forall_and]

/-- A block is settled with what stands in it. -/
theorem allSettled_tagBlock (hb : TagBlock.Settled ⟨ps, after⟩) (hps : AllSettled after ps) :
    AllSettled after [part .tagBlock ps] := by
  intro b hmem
  simp only [tagBlocksOf, tagBlocks, textOf, if_pos, List.nil_append, List.append_nil,
    List.singleton_append, List.mem_cons] at hmem
  rcases hmem with rfl | hmem
  · exact hb
  · exact hps b hmem

/-! ## Names -/

theorem textRun_of_begins (h : beginsText ps = false) : textRun ps = [] := by
  cases ps with
  | nil => rfl
  | cons p ps =>
    cases p with
    | leaf t => exact if_neg (by simpa [beginsText] using h)
    | part => rfl

theorem textRun_append (h : ∀ t ∈ ts, t.kind = .text) (hps : beginsText ps = false) :
    textRun (ts.map leaf ++ ps) = Token.textOf ts := by
  induction ts with
  | nil => exact textRun_of_begins hps
  | cons t ts ih =>
    have ht := h t (List.mem_cons_self ..)
    simp [textRun, ht, ih fun u hu => h u (List.mem_cons_of_mem t hu)]

end Piece

end TemplateMarkup
