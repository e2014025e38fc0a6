import TemplateMarkup.Proofs.CaseFolding

/-! # Line endings do not change structure

A source whose lines end in CR LF is parsed side by side with the same source
whose lines end in LF. A line ending is one token either way, no decision depends
on how it is written, and offsets behind it are moved by one for each. -/

namespace TemplateMarkup

open Cursor

/-! ## Texts and tokens with other line endings -/

namespace Text

variable {c : Char} {a b : List Char}

/-- The text with each line feed replaced by a carriage return and a line feed. -/
def crLf (cs : List Char) : List Char := cs.flatMap fun c => if c = '\n' then ['\r', '\n'] else [c]

@[simp] theorem crLf_append (a b : List Char) : crLf (a ++ b) = crLf a ++ crLf b :=
  List.flatMap_append

theorem crLf_feed (a : List Char) : crLf ('\n' :: a) = '\r' :: '\n' :: crLf a := rfl

theorem crLf_cons (h : c ≠ '\n') (a : List Char) : crLf (c :: a) = c :: crLf a := by
  simp [crLf, h]

theorem crLf_line (h : '\n' ∉ a) : crLf a = a := by
  induction a with
  | nil => rfl
  | cons c a ih =>
    rw [List.mem_cons, not_or] at h
    rw [crLf_cons (Ne.symm h.1), ih h.2]

/-- Blanks are dropped block by block. -/
theorem dropWhile_flatMap {f : Char → List Char} (hblank : ∀ c, isBlank c = true →
      ∀ d ∈ f c, isBlank d = true) (hother : ∀ c, isBlank c = false → f c = [c]) (a : List Char) :
    (a.flatMap f).dropWhile isBlank = (a.dropWhile isBlank).flatMap f := by
  induction a with
  | nil => rfl
  | cons c a ih =>
    rw [List.flatMap_cons]
    cases hc : isBlank c with
    | true =>
      rw [List.dropWhile_append_of_pos (hblank c hc), ih, List.dropWhile_cons_of_pos hc]
    | false =>
      have hno : ¬ isBlank c = true := by simp [hc]
      rw [hother c hc, List.dropWhile_cons_of_neg hno, List.singleton_append,
        List.dropWhile_cons_of_neg hno, List.flatMap_cons, hother c hc]
      rfl

theorem trim_flatMap {f : Char → List Char} (hblank : ∀ c, isBlank c = true →
      ∀ d ∈ f c, isBlank d = true) (hother : ∀ c, isBlank c = false → f c = [c]) (a : List Char) :
    trim (a.flatMap f) = (trim a).flatMap f := by
  have hback (cs : List Char) :
      (cs.flatMap f).reverse = cs.reverse.flatMap fun c => (f c).reverse :=
    List.reverse_flatMap
  unfold trim
  rw [dropWhile_flatMap hblank hother, hback, dropWhile_flatMap, List.reverse_flatMap]
  · simp [Function.comp_def]
  · exact fun c hc d hd => hblank c hc d (List.mem_reverse.mp hd)
  · intro c hc
    rw [hother c hc]
    rfl

theorem trim_crLf (a : List Char) : trim (crLf a) = crLf (trim a) := by
  have hline : isBlank '\r' = true ∧ isBlank '\n' = true := by decide
  refine trim_flatMap (fun c hc d hd => ?_) (fun c hc => if_neg ?_) a
  · split at hd
    · rcases List.mem_pair.mp hd with rfl | rfl
      · exact hline.1
      · exact hline.2
    · rw [List.mem_singleton.mp hd, hc]
  · rintro rfl
    rw [hline.2] at hc
    cases hc

/-- A text of one line is compared with both alike. -/
theorem sameIgnoringCase_crLf {line : List Char} (hl : '\n' ∉ line) (a : List Char) :
    sameIgnoringCase (crLf a) line = sameIgnoringCase a line := by
  by_cases ha : '\n' ∈ a
  · have hcr : '\n' ∈ crLf a := List.mem_flatMap.mpr ⟨'\n', ha, by decide⟩
    rw [sameIgnoringCase_of_lines hcr hl, sameIgnoringCase_of_lines ha hl]
  · rw [crLf_line ha]

end Text

namespace Likeness

/-- A line may end in LF in one text and in CR LF in the other. -/
def lineEndings : Likeness where
  fold := id
  newline a b := a = ['\n'] ∧ b = ['\r', '\n']
  toLower_fold _ := rfl
  newline_mem := by
    rintro a b c ⟨rfl, rfl⟩ hc
    simpa [or_comm] using hc
  newline_or := fun h => .inr (by rw [h.1, h.2]; decide)

variable {t u : Token} {ts us : List Token}

theorem Alike.text_eq (h : lineEndings.Alike t u) (hk : t.kind ≠ .newline) : u.text = t.text := by
  have hsame := (h.text hk).1
  unfold Same at hsame
  exact ((List.map_id _).symm.trans hsame.symm).trans (List.map_id _)

theorem Alike.text_crLf (h : lineEndings.Alike t u) : u.text = Text.crLf t.text := by
  by_cases hk : t.kind = .newline
  · rw [(h.newline hk).1, (h.newline hk).2]
    rfl
  · rw [h.text_eq hk, Text.crLf_line (h.text hk).2]

theorem Alikes.textOf_crLf (h : lineEndings.Alikes ts us) :
    Token.textOf us = Text.crLf (Token.textOf ts) := by
  induction h with
  | nil => rfl
  | cons ht _ ih => rw [Token.textOf_cons, Token.textOf_cons, Text.crLf_append, ht.text_crLf, ih]

theorem Alike.self (ht : t.Spelled) (hk : t.kind ≠ .newline) : lineEndings.Alike t t where
  kind := rfl
  newline hn := absurd hn hk
  text _ := ⟨rfl, fun hc => hk ((ht.lineEnd _ hc).mp (.inr rfl))⟩
  slash := ht.slash

end Likeness

namespace Form

/-- A line ending begins a token behind anything but a carriage return. -/
theorem extend?_lineEnd {form : Form} (h : form.kind ≠ .newline) :
    form.extend? '\n' = none ∧ form.extend? '\r' = none := by
  cases form with
  | whole => exact ⟨rfl, rfl⟩
  | carriageReturn => exact absurd rfl h
  | blanks | hyphen | asterisk | atSign | run => decide

end Form

namespace Token

open Form Likeness

theorem lex_crLf (rest : List Char) :
    lex ('\r' :: '\n' :: rest) = ⟨.newline, ['\r', '\n']⟩ :: lex rest := by
  cases rest <;> rfl

/-- The tokens of both texts are alike, and so they are if both go on with the same token. -/
theorem alikes_crLf (a : List Char) (ha : '\r' ∉ a) :
    lineEndings.Alikes (lex a) (lex (Text.crLf a)) ∧
      ∀ form read, form.kind ≠ .newline → Spelled ⟨form.kind, read.reverse⟩ →
        lineEndings.Alikes (lexFrom form read a) (lexFrom form read (Text.crLf a)) := by
  induction a with
  | nil => exact ⟨.nil, fun form read hk hs => .cons (.self hs hk) .nil⟩
  | cons c a ih =>
    rw [List.mem_cons, not_or] at ha
    obtain ⟨ihlex, ihfrom⟩ := ih ha.2
    have hlex : lineEndings.Alikes (lex (c :: a)) (lex (Text.crLf (c :: a))) := by
      by_cases hc : c = '\n'
      · subst hc
        have hfeed : lineEndings.Alike ⟨.newline, ['\n']⟩ ⟨.newline, ['\r', '\n']⟩ :=
          ⟨rfl, fun _ => ⟨rfl, rfl⟩, fun hk => absurd rfl hk, nofun⟩
        rw [lex_whole '\n' .newline rfl, Text.crLf_feed, lex_crLf]
        exact .cons hfeed ihlex
      · rw [Text.crLf_cons hc]
        refine ihfrom (.ofChar c) [c] ?_ (spelled_ofChar c)
        rw [Ne, ← lineEnd_iff]
        rintro (h | h)
        · exact ha.1 h.symm
        · exact hc h
    refine ⟨hlex, fun form read hk hs => ?_⟩
    have hself := Alike.self hs hk
    by_cases hc : c = '\n'
    · subst hc
      rw [Text.crLf_feed] at hlex ⊢
      rw [lexFrom, lexFrom, (extend?_lineEnd hk).1, (extend?_lineEnd hk).2]
      exact .cons hself hlex
    · rw [Text.crLf_cons hc] at hlex ⊢
      rw [lexFrom, lexFrom]
      cases he : form.extend? c with
      | none => exact .cons hself hlex
      | some longer =>
        obtain ⟨-, hkind, -⟩ := kind_extend?_newline he
        refine ihfrom longer (c :: read) (fun hn => hk (hkind.mpr hn)) ?_
        rw [List.reverse_cons]
        exact hs.extend he

end Token

/-! ## Parses with other line endings -/

/-- Reports of the same problem, on as many bytes, at the place where the replacement of the line
feeds moves the first. -/
structure Diagnostic.Moved (source : List Char) (d e : Diagnostic) : Prop where
  problem : e.problem = d.problem
  start : ∃ before, before <+: source ∧ d.range.start = Text.width before ∧
    e.range.start = Text.width (Text.crLf before)
  width : ∃ width, d.range.stop = d.range.start + width ∧ e.range.stop = e.range.start + width

/-- The texts of leaves with every line ending written in this way. -/
def Tree.endLines (ending : List Char) (kind : Kind) (text : List Char) : List Char :=
  if kind = .newline then ending else text

namespace Comparison

/-- Two parses of a source whose line endings are written differently. -/
def lineEndings (source : List Char) (options : Options) (caseSensitive : Bool)
    (h : '\n' ∉ options.htmlScriptType.toList) : Comparison where
  toLikeness := .lineEndings
  source := source
  options := options
  editing := false
  caseSensitive := caseSensitive
  designTime := nofun
  fold_eq := fun _ _ => rfl
  scriptType hs := by rw [hs.textOf_crLf, Text.trim_crLf, Text.sameIgnoringCase_crLf h]

variable {source : List Char} {options : Options} {caseSensitive : Bool}
  {h : '\n' ∉ options.htmlScriptType.toList}

theorem Reports.moved {d e : Diagnostic}
    (hr : (lineEndings source options caseSensitive h).Reports d e) : d.Moved source e := by
  obtain ⟨hproblem, ⟨ts, us, hs, hprefix, hstart, hstart'⟩, hwidth⟩ := hr
  refine ⟨?_, ⟨Token.textOf ts, hprefix, ?_, ?_⟩, hwidth⟩
  · rw [← d.problem.mapName_id, ← e.problem.mapName_id]
    exact hproblem.symm
  · rw [hstart, Token.widthOf_eq]
  · rw [hstart', Token.widthOf_eq, hs.textOf_crLf]

end Comparison

variable {σ : Type}

/-- Results of a source and of the same source with other line endings: the same tree but for the
texts of its line endings, and the same reports, moved. -/
structure Parse.SameButLines (source : List Char) (p q : Parse σ) : Prop where
  crLf : q.tree = p.tree.mapLeaves (Tree.endLines ['\r', '\n'])
  feed : p.tree = q.tree.mapLeaves (Tree.endLines ['\n'])
  diagnostics : List.Forall₂ (Diagnostic.Moved source) p.diagnostics q.diagnostics

/-- If the lines of a source end in CR LF instead of LF, nothing else about its result changes. -/
theorem parse_sameButLines (options : Options) (host : σ) (nesting? : Option Nesting)
    (source : String) (hsource : '\r' ∉ source.toList)
    (htype : '\n' ∉ options.htmlScriptType.toList) :
    ∃ p q, Parser.parse ⟨some options, .implicit, host⟩ nesting? source = .ok p ∧
      Parser.parse ⟨some options, .implicit, host⟩ nesting?
        (String.ofList (Text.crLf source.toList)) = .ok q ∧ p.SameButLines source.toList q := by
  let k : Comparison := .lineEndings source.toList options (nesting?.any Nesting.caseSensitive) htype
  have hlex : k.Alikes (Token.lex source.toList)
      (Token.lex (String.ofList (Text.crLf source.toList)).toList) := by
    rw [String.toList_ofList]
    exact (Token.alikes_crLf source.toList hsource).1
  obtain ⟨p, q, hp, hq, htree, hreports⟩ :=
    Comparison.parses_resemble (agrees_implicit k) rfl hlex host nesting? rfl
  rw [Comparison.otherOptions_eq rfl] at hq
  refine ⟨p, q, hp, hq, ?_, ?_, hreports.imp fun d e hr => hr.moved⟩
  · have hleaves := htree.mapLeaves (f := Tree.endLines ['\r', '\n']) (g := fun _ text => text) rfl
      (fun {t u} ht => by
        unfold Tree.endLines
        split
        · next hk => exact (ht.newline hk).2.symm
        · next hk => exact (ht.text_eq hk).symm) fun hk => if_neg hk
    rw [Tree.mapLeavesOf_self] at hleaves
    exact (List.cons.inj hleaves).1.symm
  · have hleaves := htree.mapLeaves (f := fun _ text => text) (g := Tree.endLines ['\n']) rfl
      (fun {t u} ht => by
        unfold Tree.endLines
        rw [ht.kind]
        split
        · next hk => exact (ht.newline hk).1
        · next hk => exact (ht.text_eq hk).symm) fun hk => (if_neg hk).symm
    rw [Tree.mapLeavesOf_self] at hleaves
    exact (List.cons.inj hleaves).1

/-- A region of several lines, with code at the beginning of one, a script and an unclosed
element. -/
theorem parse_sameButLines_region :
    let source := "<ul a='x\n y'>\n  @f(1,\n 2)\n@* c *@\n<script\n type=' text/html\n'><b>\n</ul> begin \n end "
    '\r' ∉ source.toList ∧ '\n' ∉ ({} : Options).htmlScriptType.toList ∧
    ∃ p q, Parser.parse ⟨some {}, .implicit, ()⟩ (some ⟨"begin", "end", true⟩) source = .ok p ∧
      Parser.parse ⟨some {}, .implicit, ()⟩ (some ⟨"begin", "end", true⟩)
        (String.ofList (Text.crLf source.toList)) = .ok q ∧ p.SameButLines source.toList q :=
  ⟨by decide, by decide, parse_sameButLines {} () (some ⟨"begin", "end", true⟩) _ (by decide)
    (by decide)⟩

end TemplateMarkup
