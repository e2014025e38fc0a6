import Mathlib.Data.List.Forall2
import TemplateMarkup.Options
import TemplateMarkup.Proofs.Offsets
import TemplateMarkup.Proofs.View
import TemplateMarkup.Text.Blank

/-! # What two parses may differ in

Two sources are alike if they have tokens of the same kinds in the same order and
texts that differ in a way no decision of the parser depends on: in the case of
letters, or in how a line ending is written. `Likeness` is such a way to differ,
`Comparison` adds the settings of the two parses. What follows are the relations
that the parses are to keep: between tokens, offsets, reports and trees. -/

namespace TemplateMarkup

/-- A text of several lines is not the same as one of a single line. -/
theorem Text.sameIgnoringCase_of_lines {lines line : List Char} (h : '\n' ∈ lines)
    (hl : '\n' ∉ line) : sameIgnoringCase lines line = false := by
  rw [← Bool.not_eq_true, sameIgnoringCase_iff]
  intro heq
  have hmem : '\n' ∈ foldCase line := heq ▸ List.mem_map_of_mem (f := Char.toLower) h
  obtain ⟨c, hc, hlower⟩ := List.mem_map.mp hmem
  have hsame := apply_toLower (· == '\n') (by decide) c
  rw [hlower, beq_self_eq_true, eq_comm, beq_iff_eq] at hsame
  exact hl (hsame ▸ hc)

/-- A way in which texts may differ without being told apart. -/
structure Likeness where
  /-- What is left of a character once the difference is taken away. -/
  fold : Char → Char
  /-- Which line ending may stand for which. -/
  newline : List Char → List Char → Prop
  toLower_fold (c : Char) : (fold c).toLower = c.toLower
  newline_mem {a b : List Char} {c : Char} : newline a b → c ∈ a ++ b → c = '\r' ∨ c = '\n'
  newline_or {a b : List Char} : newline a b → a = b ∨ '\n' ∈ a ∧ '\n' ∈ b

namespace Likeness

variable {l : Likeness} {a b x y : List Char} {t u : Token} {ts us : List Token}

/-! ## Texts -/

/-- Texts without a line ending in them that are not told apart. -/
def Same (l : Likeness) (a b : List Char) : Prop := a.map l.fold = b.map l.fold

namespace Same

theorem refl (a : List Char) : l.Same a a := rfl

theorem length_eq (h : l.Same a b) : b.length = a.length := by
  have hlen := congrArg List.length h
  simpa using hlen.symm

theorem append (h : l.Same a b) (h' : l.Same x y) : l.Same (a ++ x) (b ++ y) := by
  unfold Same at *
  rw [List.map_append, List.map_append, h, h']

theorem take (h : l.Same a b) (n : Nat) : l.Same (a.take n) (b.take n) := by
  unfold Same at *
  rw [List.map_take, List.map_take, h]

theorem drop (h : l.Same a b) (n : Nat) : l.Same (a.drop n) (b.drop n) := by
  unfold Same at *
  rw [List.map_drop, List.map_drop, h]

theorem foldCase_eq (h : l.Same a b) : Text.foldCase a = Text.foldCase b := by
  have hfold (cs : List Char) : Text.foldCase (cs.map l.fold) = Text.foldCase cs := by
    simp [Text.foldCase, Function.comp_def, l.toLower_fold]
  rw [← hfold a, h, hfold b]

theorem width_eq (h : l.Same a b) : Text.width b = Text.width a := by
  rw [← Text.width_foldCase b, ← h.foldCase_eq, Text.width_foldCase]

theorem sameIgnoringCase (h : l.Same a b) (h' : l.Same x y) :
    Text.sameIgnoringCase b y = Text.sameIgnoringCase a x := by
  rw [Text.sameIgnoringCase, Text.sameIgnoringCase, h.foldCase_eq, h'.foldCase_eq]

/-- What cannot tell the cases of a letter apart sees the same. -/
theorem map_eq {α : Type} {p : Char → α} (hp : ∀ c, p c.toLower = p c) (h : l.Same a b) :
    b.map p = a.map p := by
  have hfold (cs : List Char) : (Text.foldCase cs).map p = cs.map p := by
    simp [Text.foldCase, Function.comp_def, hp]
  rw [← hfold a, h.foldCase_eq, hfold b]

theorem head?_map {α : Type} {p : Char → α} (hp : ∀ c, p c.toLower = p c) (h : l.Same a b) :
    b.head?.map p = a.head?.map p := by
  rw [← List.head?_map, ← List.head?_map, h.map_eq hp]

/-- A text of one character that is not a letter. -/
theorem eq_singleton_iff {p : Char} (hp : ∀ c : Char, (c.toLower == p) = (c == p)) (h : l.Same a b) :
    b = [p] ↔ a = [p] := by
  have hiff (cs : List Char) : cs = [p] ↔ cs.map (· == p) = [true] := by
    cases cs with
    | nil => simp
    | cons c cs => cases cs <;> simp
  rw [hiff b, h.map_eq hp, ← hiff a]

end Same

/-! ## Tokens -/

/-- Tokens that are not told apart. -/
structure Alike (l : Likeness) (t u : Token) : Prop where
  kind : u.kind = t.kind
  newline : t.kind = .newline → l.newline t.text u.text
  text : t.kind ≠ .newline → l.Same t.text u.text ∧ '\n' ∉ t.text
  slash : t.kind = .slash → t.text = ['/']

/-- Runs of tokens that are not told apart, one by one. -/
abbrev Alikes (l : Likeness) : List Token → List Token → Prop := List.Forall₂ l.Alike

/-- A test of tokens that sees no difference. -/
def Blind (l : Likeness) (test : Token → Bool) : Prop := ∀ ⦃t u⦄, l.Alike t u → test u = test t

theorem blind_kind (p : Kind → Bool) : l.Blind fun t => p t.kind := fun _ _ h => congrArg p h.kind

namespace Alike

theorem foldCase_or (h : l.Alike t u) : Text.foldCase t.text = Text.foldCase u.text ∨
    '\n' ∈ t.text ∧ '\n' ∈ u.text := by
  by_cases hk : t.kind = .newline
  · rcases l.newline_or (h.newline hk) with heq | hmem
    · exact .inl (by rw [heq])
    · exact .inr hmem
  · exact .inl (h.text hk).1.foldCase_eq

theorem width_eq (h : l.Alike t u) (hk : t.kind ≠ .newline) : u.width = t.width :=
  (h.text hk).1.width_eq

/-- The parts of a token that is split are alike. -/
theorem part (h : l.Alike t u) (hk : t.kind ≠ .newline) (hs : t.kind ≠ .slash)
    {f : List Char → List Char} (hsame : l.Same (f t.text) (f u.text))
    (hmem : ∀ c ∈ f t.text, c ∈ t.text) : l.Alike ⟨t.kind, f t.text⟩ ⟨u.kind, f u.text⟩ where
  kind := h.kind
  newline hn := absurd hn hk
  text _ := ⟨hsame, fun hn => (h.text hk).2 (hmem _ hn)⟩
  slash hn := absurd hn hs

theorem take (h : l.Alike t u) (hk : t.kind ≠ .newline) (hs : t.kind ≠ .slash) (n : Nat) :
    l.Alike ⟨t.kind, t.text.take n⟩ ⟨u.kind, u.text.take n⟩ :=
  h.part hk hs ((h.text hk).1.take n) fun _ => List.mem_of_mem_take

theorem drop (h : l.Alike t u) (hk : t.kind ≠ .newline) (hs : t.kind ≠ .slash) (n : Nat) :
    l.Alike ⟨t.kind, t.text.drop n⟩ ⟨u.kind, u.text.drop n⟩ :=
  h.part hk hs ((h.text hk).1.drop n) fun _ => List.mem_of_mem_drop

end Alike

namespace Alikes

theorem kinds (h : l.Alikes ts us) : us.map Token.kind = ts.map Token.kind := by
  induction h with
  | nil => rfl
  | cons h _ ih => rw [List.map_cons, List.map_cons, h.kind, ih]

theorem kindAt (h : l.Alikes ts us) (n : Nat) : Token.kindAt us n = Token.kindAt ts n := by
  induction h generalizing n with
  | nil => rfl
  | cons h _ ih =>
    cases n with
    | zero => exact h.kind
    | succ n => exact ih n

theorem trivia_iff (h : l.Alikes ts us) : (∀ u ∈ us, u.kind.isTrivia = true) ↔
    ∀ t ∈ ts, t.kind.isTrivia = true := by
  have hall (vs : List Token) : (∀ v ∈ vs, v.kind.isTrivia = true) ↔
      ∀ kind ∈ vs.map Token.kind, kind.isTrivia = true := by simp
  rw [hall us, h.kinds, ← hall ts]

theorem textAt (h : l.Alikes ts us) {n : Nat} (hn : Token.kindAt ts n ≠ .newline) :
    l.Same (Token.textAt ts n) (Token.textAt us n) := by
  induction h generalizing n with
  | nil => exact .refl _
  | cons h _ ih =>
    cases n with
    | zero => exact (h.text hn).1
    | succ n => exact ih hn

theorem take (h : l.Alikes ts us) (n : Nat) : l.Alikes (ts.take n) (us.take n) :=
  List.forall₂_take n h

theorem drop (h : l.Alikes ts us) (n : Nat) : l.Alikes (ts.drop n) (us.drop n) :=
  List.forall₂_drop n h

theorem append {vs ws : List Token} (h : l.Alikes ts us) (h' : l.Alikes vs ws) :
    l.Alikes (ts ++ vs) (us ++ ws) := List.rel_append h h'

theorem reverse (h : l.Alikes ts us) : l.Alikes ts.reverse us.reverse :=
  List.forall₂_reverse_iff.mpr h

theorem takeWhile {test : Token → Bool} (ht : l.Blind test) (h : l.Alikes ts us) :
    l.Alikes (ts.takeWhile test) (us.takeWhile test) := by
  induction h with
  | nil => exact .nil
  | cons h _ ih =>
    simp only [List.takeWhile_cons, ht h]
    split
    · exact .cons h ih
    · exact .nil

theorem same (h : l.Alikes ts us) (hn : ∀ t ∈ ts, t.kind ≠ .newline) :
    l.Same (Token.textOf ts) (Token.textOf us) := by
  induction h with
  | nil => exact .refl _
  | cons h _ ih =>
    obtain ⟨ht, hts⟩ := List.forall_mem_cons.mp hn
    exact (h.text ht).1.append (ih hts)

theorem foldCase_or (h : l.Alikes ts us) :
    Text.foldCase (Token.textOf ts) = Text.foldCase (Token.textOf us) ∨
      '\n' ∈ Token.textOf ts ∧ '\n' ∈ Token.textOf us := by
  induction h with
  | nil => exact .inl rfl
  | cons h _ ih =>
    simp only [Token.textOf_cons, List.mem_append]
    rcases h.foldCase_or with heq | ⟨ht, hu⟩
    · rcases ih with heqs | ⟨hts, hus⟩
      · left
        unfold Text.foldCase at *
        rw [List.map_append, List.map_append, heq, heqs]
      · exact .inr ⟨.inr hts, .inr hus⟩
    · exact .inr ⟨.inl ht, .inl hu⟩

/-- A text of one line is compared with both alike. -/
theorem sameIgnoringCase (h : l.Alikes ts us) {line : List Char} (hl : '\n' ∉ line) :
    Text.sameIgnoringCase (Token.textOf us) line = Text.sameIgnoringCase (Token.textOf ts) line := by
  rcases h.foldCase_or with heq | ⟨ht, hu⟩
  · rw [Text.sameIgnoringCase, Text.sameIgnoringCase, heq]
  · rw [Text.sameIgnoringCase_of_lines ht hl, Text.sameIgnoringCase_of_lines hu hl]

end Alikes

end Likeness

/-! ## Comparisons -/

/-- Two parses to be compared: how their sources may differ, and their settings. -/
structure Comparison extends Likeness where
  /-- The source of the first parse. -/
  source : List Char
  /-- The options of the first parse. -/
  options : Options
  /-- Whether the second parse is made at design time and the first is not. -/
  editing : Bool
  /-- Whether nesting sequences are compared with their case, in both. -/
  caseSensitive : Bool
  designTime : editing = true → options.designTime = false
  fold_eq : caseSensitive = true → ∀ c, fold c = c
  /-- What the value of a script's type says is the same. -/
  scriptType {ts us : List Token} : toLikeness.Alikes ts us →
    Text.sameIgnoringCase (Text.trim (Token.textOf us)) options.htmlScriptType.toList =
      Text.sameIgnoringCase (Text.trim (Token.textOf ts)) options.htmlScriptType.toList

/-- The problem with another name in it. -/
def Problem.mapName (f : List Char → List Char) : Problem → Problem
  | unfinishedTag name => unfinishedTag (f name)
  | missingEndTag name => missingEndTag (f name)
  | unexpectedEndTag name => unexpectedEndTag (f name)
  | textTagHasAttributes => textTagHasAttributes
  | outerTagUnnamed => outerTagUnnamed
  | blockStartsWithoutTag => blockStartsWithoutTag

theorem Problem.mapName_id (p : Problem) : p.mapName (·.map id) = p := by
  cases p <;> simp [mapName]

namespace Comparison

variable {k : Comparison}

/-- The options of the second parse. -/
def otherOptions (k : Comparison) : Options :=
  { k.options with designTime := k.options.designTime || k.editing }

/-- Offsets of the two sources behind as many tokens. -/
def Offsets (k : Comparison) (i j : Nat) : Prop :=
  ∃ ts us, k.Alikes ts us ∧ Token.textOf ts <+: k.source ∧
    i = Token.widthOf ts ∧ j = Token.widthOf us

/-- Ranges of the same width at such offsets. -/
def Ranges (k : Comparison) (r s : Range) : Prop :=
  k.Offsets r.start s.start ∧ ∃ width, r.stop = r.start + width ∧ s.stop = s.start + width

theorem ranges_ofText {i j : Nat} {a b : List Char} (h : k.Offsets i j) (hs : k.Same a b) :
    k.Ranges (.ofText i a) (.ofText j b) :=
  ⟨h, Text.width a, rfl, by rw [Range.ofText, hs.width_eq]⟩

/-- Reports that say the same about the same place. -/
structure Reports (k : Comparison) (d e : Diagnostic) : Prop where
  problem : d.problem.mapName (·.map k.fold) = e.problem.mapName (·.map k.fold)
  range : k.Ranges d.range e.range

/-! ## Trees -/

/-- Neighbouring trees that differ in texts that are not told apart and, if the second parse alone
is made at design time, in where they have spacing. -/
inductive Resembles (k : Comparison) : List Tree → List Tree → Prop
  | nil : Resembles k [] []
  | append {a b c d : List Tree} : Resembles k a b → Resembles k c d → Resembles k (a ++ c) (b ++ d)
  | node {a b : List Tree} (kind : Kind) : Resembles k a b →
      Resembles k [.node kind a] [.node kind b]
  | token {t u : Token} : k.Alike t u → Resembles k [Tree.ofToken t] [Tree.ofToken u]
  | missing {kind : Kind} : kind ≠ .newline → Resembles k [.token kind []] [.token kind []]
  /-- Spacing in the first tree only, with the node it is all of. -/
  | blank {t : Token} : k.editing = true → t.kind.isTrivia = true → Resembles k [Tree.ofToken t] []
  | hollow {a : List Tree} {kind : Kind} : k.editing = true → kind = .literal ∨ kind = .unparsed →
      Resembles k a [] → Resembles k [.node kind a] []
  /-- Spacing in the second tree only. -/
  | blank' {u : Token} : k.editing = true → u.kind.isTrivia = true → Resembles k [] [Tree.ofToken u]
  | hollow' {b : List Tree} {kind : Kind} : k.editing = true → kind = .literal ∨ kind = .unparsed →
      Resembles k [] b → Resembles k [] [.node kind b]

namespace Resembles

variable {ts us : List Token}

theorem leaves (h : k.Alikes ts us) :
    k.Resembles (ts.map Tree.ofToken) (us.map Tree.ofToken) := by
  induction h with
  | nil => exact .nil
  | cons h _ ih => exact (token h).append ih

theorem blanks (he : k.editing = true) (h : ∀ t ∈ ts, t.kind.isTrivia = true) :
    k.Resembles (ts.map Tree.ofToken) [] := by
  induction ts with
  | nil => exact .nil
  | cons t ts ih =>
    obtain ⟨ht, hts⟩ := List.forall_mem_cons.mp h
    exact (blank he ht).append (ih hts)

theorem blanks' (he : k.editing = true) (h : ∀ u ∈ us, u.kind.isTrivia = true) :
    k.Resembles [] (us.map Tree.ofToken) := by
  induction us with
  | nil => exact .nil
  | cons u us ih =>
    obtain ⟨hu, hus⟩ := List.forall_mem_cons.mp h
    exact (blank' he hu).append (ih hus)

/-- The first tree has leaves for the tokens behind some spacing only. -/
theorem leaves_drop {spaces : List Token} (he : k.editing = true)
    (hb : ∀ t ∈ spaces, t.kind.isTrivia = true) (h : k.Alikes (spaces ++ ts) us) :
    k.Resembles (ts.map Tree.ofToken) (us.map Tree.ofToken) := by
  have hblanks : k.Alikes spaces (us.take spaces.length) := by
    simpa using h.take spaces.length
  have hrest : k.Alikes ts (us.drop spaces.length) := by
    simpa using h.drop spaces.length
  rw [← List.take_append_drop spaces.length us, List.map_append]
  exact (blanks' he (hblanks.trivia_iff.mpr hb)).append (leaves hrest)

theorem leaves_drop' {spaces : List Token} (he : k.editing = true)
    (hb : ∀ u ∈ spaces, u.kind.isTrivia = true) (h : k.Alikes ts (spaces ++ us)) :
    k.Resembles (ts.map Tree.ofToken) (us.map Tree.ofToken) := by
  have hblanks : k.Alikes (ts.take spaces.length) spaces := by
    simpa using h.take spaces.length
  have hrest : k.Alikes (ts.drop spaces.length) us := by
    simpa using h.drop spaces.length
  rw [← List.take_append_drop spaces.length ts, List.map_append]
  exact (blanks he (hblanks.trivia_iff.mp hb)).append (leaves hrest)

/-- Tokens that are flushed become nodes of the kind, if there are any. -/
theorem flushTrees (kind : Kind) (h : k.Alikes ts us) :
    k.Resembles (Cursor.flushTrees kind ts) (Cursor.flushTrees kind us) := by
  cases h with
  | nil => exact .nil
  | cons h hs => exact node kind (leaves (List.Forall₂.cons h hs |> List.forall₂_reverse_iff.mpr))

/-- A node may be hollow that the other tree does not have. -/
theorem flushTrees_blank {kind : Kind} (he : k.editing = true)
    (hk : kind = .literal ∨ kind = .unparsed)
    (h : k.Resembles (ts.reverse.map Tree.ofToken) (us.reverse.map Tree.ofToken)) :
    k.Resembles (Cursor.flushTrees kind ts) (Cursor.flushTrees kind us) := by
  unfold Cursor.flushTrees
  by_cases hts : ts = []
  · by_cases hus : us = []
    · simpa [hts, hus] using nil
    · rw [if_pos hts, if_neg hus]
      exact hollow' he hk (by simpa [hts] using h)
  · by_cases hus : us = []
    · rw [if_neg hts, if_pos hus]
      exact hollow he hk (by simpa [hus] using h)
    · rw [if_neg hts, if_neg hus]
      exact node kind h

end Resembles

/-- Open nodes, the innermost first and the root last, that resemble each other one by one. The
markers are those of all but the root. -/
inductive Frames (k : Comparison) : List (Marker × Marker) → List (List Tree) → List (List Tree) →
    Prop
  | root {f g : List Tree} : k.Resembles f g → Frames k [] [f] [g]
  | cons {ms : List (Marker × Marker)} {m n : Marker} {f g : List Tree} {fs gs : List (List Tree)} :
      Frames k ms fs gs → m.index = (Cursor.framesEvents fs).length →
      n.index = (Cursor.framesEvents gs).length → k.Resembles f g →
      Frames k ((m, n) :: ms) (f :: fs) (g :: gs)

namespace Frames

variable {ms : List (Marker × Marker)} {fs gs : List (List Tree)}

theorem exists_cons (h : k.Frames ms fs gs) :
    ∃ f fs' g gs', fs = f :: fs' ∧ gs = g :: gs' := by
  cases h with
  | root => exact ⟨_, _, _, _, rfl, rfl⟩
  | cons => exact ⟨_, _, _, _, rfl, rfl⟩

/-- Trees are added to the innermost nodes. -/
theorem add {f g a b : List Tree} (h : k.Frames ms (f :: fs) (g :: gs)) (hab : k.Resembles a b) :
    k.Frames ms ((f ++ a) :: fs) ((g ++ b) :: gs) := by
  cases h with
  | root hfg => exact .root (hfg.append hab)
  | cons hout hm hn hfg => exact .cons hout hm hn (hfg.append hab)

end Frames

end Comparison

end TemplateMarkup
