import TemplateMarkup.Proofs.Lexing
import TemplateMarkup.Proofs.Lossless
import TemplateMarkup.Proofs.Moves

/-! # From the last view to the result of a parse

A parse ends its unit at some cursor. What this cursor shows, reports and leaves
unread is what the result says. -/

namespace TemplateMarkup

open Cursor TemplateMarkup.Tree

namespace Parse

variable {σ : Type} {code : EmbeddedCode σ} {options : Options} {host : σ} {source : String}

/-- The cursor before the unit of a parse is read. -/
def blockStart (options : Options) (host : σ) (source : String) : Cursor σ :=
  (ofSource source.toList { options } host).start.2.start.2

/-- The cursor behind what the unit of a parse claims. -/
def blockEnd (options : Options) (code : EmbeddedCode σ) (host : σ) (source : String) : Cursor σ :=
  ((blockStart options host source).bumpWhile (·.kind.isTrivia)).blockContent code

/-- The cursor before the unit of a default parse is read. -/
def unitStart (source : String) : Cursor Unit := blockStart {} () source

/-- The cursor behind what the unit of a default parse claims. -/
def unitEnd (source : String) : Cursor Unit := blockEnd {} .implicit () source

theorem ahead_blockStart (options : Options) (host : σ) (source : String) :
    (blockStart options host source).ahead = Token.lex source.toList := rfl

theorem ahead_unitStart (source : String) : (unitStart source).ahead = Token.lex source.toList := rfl

/-- A unit that begins with a tag is an element. -/
theorem blockEnd_of_openAngle (h : (blockStart options host source).current = .openAngle) :
    blockEnd options code host source = (blockStart options host source).tagBlock code := by
  have hnone : (blockStart options host source).bumpWhile (·.kind.isTrivia) =
      blockStart options host source := by
    refine bumpWhile_of_head fun t ht => ?_
    obtain ⟨rest, ha⟩ := List.head?_eq_some_iff.mp ht
    rw [current_cons ha] at h
    rw [h]
    rfl
  rw [blockEnd, hnone, Cursor.blockContent, h]

theorem unitEnd_of_openAngle (h : (unitStart source).current = .openAngle) :
    unitEnd source = (unitStart source).tagBlock .implicit := blockEnd_of_openAngle h

theorem shows_blockStart (options : Options) (host : σ) (source : String) :
    Shows (blockStart options host source) [[], []] := by
  refine ⟨rfl, rfl, fun t ht => ?_⟩
  rw [blockStart, tokens_start, tokens_start, tokens_ofSource] at ht
  exact ⟨Token.text_ne_nil_of_mem_lex ht, Token.text_of_openAngle_of_mem_lex ht,
    Token.kind_ne_endOfInput_of_mem_lex ht⟩

theorem shows_unitStart (source : String) : Shows (unitStart source) [[], []] :=
  shows_blockStart {} () source

theorem views_blockStart (options : Options) (host : σ) (source : String) :
    Views (blockStart options host source) ⟨1⟩ [] [⟨⟨0⟩, []⟩] :=
  ⟨[], [[]], shows_blockStart options host source, rfl, rfl, rfl, rfl, trivial⟩

theorem views_unitStart (source : String) :
    Views (unitStart source) ⟨1⟩ [] [⟨⟨0⟩, []⟩] := views_blockStart {} () source

theorem adds_leaveRest (c : Cursor σ) :
    ∃ ts : List Token, c.rest = Token.textOf ts ∧ c.leaveRest.diagnostics = c.diagnostics ∧
      c.leaveRest.held = [] ∧ c.leaveRest.ahead = [] ∧
      Adds (if ts = [] then [] else [.part .unparsed (ts.map .leaf)]) c c.leaveRest := by
  have hback := Adds.putBack c
  have hheld := held_putBack c
  refine ⟨c.putBack.ahead, by rw [ahead_putBack]; rfl, ?_⟩
  unfold Cursor.leaveRest
  dsimp only
  by_cases ha : c.putBack.ahead = []
  · rw [if_pos (by simp [atEnd, ha]), if_pos ha]
    exact ⟨rfl, hheld, ha, hback⟩
  · rw [if_neg (by simpa [atEnd] using ha), if_neg ha, ahead_start]
    have hall := Adds.bumpN (c := c.putBack.start.2) (by rw [held_start, hheld])
      c.putBack.ahead.length
    rw [ahead_start, List.take_length] at hall
    have hnode := (hall.trans (Adds.flushRaw _)).node .unparsed (by decide)
    rw [List.append_nil] at hnode
    refine ⟨(hback.trans hnode).diagnostics, ?_, ?_, hback.trans hnode⟩
    · rw [held_complete]
      exact held_bumpN (by rw [held_start, hheld]) _
    · rw [ahead_complete]
      simp [flushRaw, ahead_bumpN]

/-- With all tokens leaves, the root is built from the trees in the only open node. -/
theorem ofEvents?_root {c : Cursor σ} {f : List Tree} (h : Shows c [f]) (hh : c.held = [])
    (ha : c.ahead = []) : ofEvents? (c.complete ⟨0⟩ .root).tokens
      (c.complete ⟨0⟩ .root).events.toList =
        some (.node .root (f ++ flushTrees .literal c.pending)) := by
  have hflush := h.flush .literal
  generalize f ++ flushTrees .literal c.pending = children at hflush ⊢
  have hlist : (c.flush .literal).events.toList = .placeholder :: eventsOf children := by
    rw [hflush.events]
    rfl
  have hevents : (c.complete ⟨0⟩ .root).events.toList = (Tree.node .root children).events := by
    rw [complete_eq (h.placeholder rfl)]
    simp [hlist, Tree.events]
  have htokens : (c.complete ⟨0⟩ .root).tokens.map Token.text = leafTextsOf children := by
    rw [tokens_complete, ← tokens_flush c .literal]
    simpa [tokens, hh, ha, framesTexts] using hflush.texts
  rw [hevents]
  exact ofEvents?_events .root htokens

theorem result_tree {c : Cursor σ} {f : List Tree} (h : Shows c [f]) (hh : c.held = [])
    (ha : c.ahead = []) {p : Parse σ} (hok : (c.complete ⟨0⟩ .root).result = .ok p) :
    p.tree = .node .root (f ++ flushTrees .literal c.pending) := by
  unfold Cursor.result at hok
  rw [ofEvents?_root h hh ha] at hok
  split at hok
  · cases hok
  · next he => cases he
  · next he =>
    cases he
    cases hok
    rfl

/-- The root holds what the only open node shows. -/
theorem result_root {c : Cursor σ} {ps : List Piece} (hv : Views c ⟨0⟩ ps []) (hh : c.held = [])
    (ha : c.ahead = []) {p : Parse σ} (hok : (c.complete ⟨0⟩ .root).result = .ok p) :
    ∃ ts, p.tree = .node .root ts ∧ piecesOf ts = ps := by
  obtain ⟨f, fs, hs, hm, hps, hout⟩ := hv
  cases fs with
  | nil =>
    refine ⟨_, result_tree hs hh ha hok, ?_⟩
    rw [piecesOf_append, piecesOf_flushTrees, hps]
    rfl
  | cons g fs => exact hout.elim

/-- The cursor at the end of a parse. -/
theorem finish_block (options : Options) (code : EmbeddedCode σ) (host : σ) (source : String) :
    Parser.finish options code host none source =
      ((((blockEnd options code host source).complete ⟨1⟩ .markupBlock).flush
        .literal).leaveRest).complete ⟨0⟩ .root :=
  rfl

theorem finish_eq (source : String) : Parser.finish {} .implicit () none source =
    ((((unitEnd source).complete ⟨1⟩ .markupBlock).flush .literal).leaveRest).complete ⟨0⟩ .root :=
  rfl

/-- A parse says what was reported up to the end of its unit. -/
theorem diagnostics_parseBlock {p : Parse σ} (hp : parseBlock options code host source = .ok p) :
    p.diagnostics = (blockEnd options code host source).diagnostics.toList := by
  have hresult : (Parser.finish options code host none source).result = .ok p := hp
  obtain ⟨-, -, hleft, -⟩ :=
    adds_leaveRest (((blockEnd options code host source).complete ⟨1⟩ .markupBlock).flush .literal)
  rw [diagnostics_of_result hresult, finish_block, diagnostics_complete, hleft, diagnostics_flush,
    diagnostics_complete]

theorem parse_reports (source : String) :
    ∃ p, parse source = .ok p ∧ p.diagnostics = (unitEnd source).diagnostics.toList := by
  obtain ⟨p, hp, -⟩ :=
    Parser.finish_covers (lawful_implicit True fun _ => True) {} () none source trivial
  exact ⟨p, hp, diagnostics_parseBlock hp⟩

/-- A parse returns the unit as its last cursor shows it, and the rest of the source. -/
theorem parseBlock_of_views {strict : Prop} (hl : code.Lawful strict fun _ => True)
    {ps : List Piece} (hv : Views (blockEnd options code host source) ⟨1⟩ ps [⟨⟨0⟩, []⟩]) :
    ∃ p block rest, parseBlock options code host source = .ok p ∧ p.tree.Covers source.toList ∧
      p.diagnostics = (blockEnd options code host source).diagnostics.toList ∧
      p.tree = .node .root (.node .markupBlock block :: rest) ∧ piecesOf block = ps ∧
      ((rest = [] ∧ (blockEnd options code host source).rest = []) ∨
        ∃ us ts, rest = [.node .unparsed us] ∧ piecesOf us = ts.map .leaf ∧
          (blockEnd options code host source).rest = Token.textOf ts ∧ textOf us ≠ []) := by
  obtain ⟨p, hp, hcovers, -⟩ := Parser.finish_covers hl options host none source trivial
  obtain ⟨block, rest, htree, hrest⟩ := hcovers.shape
  have hparse : parseBlock options code host source = .ok p := hp
  have hdiag := diagnostics_parseBlock hparse
  rw [finish_block] at hp
  have hunit := hv.complete .markupBlock (by decide)
  have hleft : ((blockEnd options code host source).complete ⟨1⟩ .markupBlock).rest =
      (blockEnd options code host source).rest := by
    simp [Cursor.rest]
  generalize (blockEnd options code host source).complete ⟨1⟩ .markupBlock = d at hp hunit hleft
  have hflush := Adds.flush_literal d
  obtain ⟨ts, hts, -, hheld, hahead, hadds⟩ := adds_leaveRest (d.flush .literal)
  obtain ⟨children, hroot, hpieces⟩ :=
    result_root ((hflush.trans hadds).view hunit) hheld hahead hp
  have hchildren : children = .node .markupBlock block :: rest := by
    rw [htree] at hroot
    cases hroot
    rfl
  subst hchildren
  have hrestText : (blockEnd options code host source).rest = Token.textOf ts := by
    rw [← hleft, hflush.rest, ← hts]
    rfl
  refine ⟨p, block, rest, hparse, hcovers, hdiag, htree, ?_⟩
  simp only [piecesOf, pieces, reduceCtorEq, if_false, List.nil_append, List.singleton_append,
    List.cons.injEq, Piece.part.injEq, true_and] at hpieces
  obtain ⟨hblock, htail⟩ := hpieces
  refine ⟨hblock, ?_⟩
  rcases hrest with rfl | ⟨us, rfl, hne⟩
  · refine .inl ⟨rfl, ?_⟩
    by_cases hts' : ts = []
    · rw [hrestText, hts']
      rfl
    · rw [if_neg hts'] at htail
      cases htail
  · refine .inr ⟨us, ts, rfl, ?_, hrestText, hne⟩
    by_cases hts' : ts = []
    · rw [if_pos hts'] at htail
      simp [piecesOf, pieces] at htail
    · simpa [hts', piecesOf, pieces] using htail

/-- A default parse returns the unit as its last cursor shows it, and the rest of the source. -/
theorem parse_of_views {source : String} {ps : List Piece}
    (hv : Views (unitEnd source) ⟨1⟩ ps [⟨⟨0⟩, []⟩]) :
    ∃ p block rest, parse source = .ok p ∧ p.tree.Covers source.toList ∧
      p.diagnostics = (unitEnd source).diagnostics.toList ∧
      p.tree = .node .root (.node .markupBlock block :: rest) ∧ piecesOf block = ps ∧
      ((rest = [] ∧ (unitEnd source).rest = []) ∨
        ∃ us ts, rest = [.node .unparsed us] ∧ piecesOf us = ts.map .leaf ∧
          (unitEnd source).rest = Token.textOf ts ∧ textOf us ≠ []) :=
  parseBlock_of_views (lawful_implicit True fun _ => True) hv

/-- What is left to the host is the text of the second child. -/
theorem unparsedText?_of_tree {p : Parse σ} {block rest : List Tree} {left : List Char}
    (htree : p.tree = .node .root (.node .markupBlock block :: rest))
    (hrest : (rest = [] ∧ left = []) ∨ ∃ us ts, rest = [.node .unparsed us] ∧
      piecesOf us = ts.map .leaf ∧ left = Token.textOf ts ∧ textOf us ≠ []) :
    p.unparsedText? = if left = [] then none else some left := by
  rw [Parse.unparsedText?, htree]
  rcases hrest with ⟨rfl, rfl⟩ | ⟨us, ts, rfl, hus, rfl, hne⟩
  · rfl
  · have htext : textOf us = Token.textOf ts := by
      rw [← textOf_piecesOf, hus, Piece.textOf_map_leaf]
    rw [if_neg (htext ▸ hne), ← htext]
    rfl

/-- The tag blocks of a default parse, and what it leaves to the host. -/
theorem tagSpans_of_views {source : String} {ps : List Piece}
    (hv : Views (unitEnd source) ⟨1⟩ ps [⟨⟨0⟩, []⟩]) :
    ∃ p, parse source = .ok p ∧ p.tree.Covers source.toList ∧
      p.diagnostics = (unitEnd source).diagnostics.toList ∧
      p.tree.tagSpans 0 = Piece.tagSpansOf 0 ps ∧ p.unparsedText? =
        if (unitEnd source).rest = [] then none else some (unitEnd source).rest := by
  obtain ⟨p, block, rest, hp, hcovers, hdiagnostics, htree, hblock, hrest⟩ := parse_of_views hv
  refine ⟨p, hp, hcovers, hdiagnostics, ?_⟩
  have hspans (start : Nat) : tagSpansOf start block = Piece.tagSpansOf start ps := by
    rw [← hblock, tagSpansOf_piecesOf]
  refine ⟨?_, unparsedText?_of_tree htree hrest⟩
  rw [htree]
  rcases hrest with ⟨rfl, -⟩ | ⟨us, ts, rfl, hus, -⟩
  · simp [Tree.tagSpans, Tree.tagSpansOf, hspans]
  · have hnone (start : Nat) : tagSpansOf start us = [] := by
      rw [← tagSpansOf_piecesOf, hus, Piece.tagSpansOf_map_leaf]
    simp [Tree.tagSpans, Tree.tagSpansOf, hspans, hnone]

/-- What a test says of the result of a parse holds of it. -/
theorem exists_of_check {ε α : Type} {result : Except ε α} {check : α → Bool}
    (h : result.toOption.any check = true) : ∃ p, result = .ok p ∧ check p = true := by
  cases result with
  | error => simp [Except.toOption] at h
  | ok p => exact ⟨p, rfl, by simpa [Except.toOption] using h⟩

end Parse

namespace Cursor

variable {σ : Type} {c : Cursor σ} {f : List Tree}

/-! ### The trees of any parse -/

theorem shows_root (source : List Char) (context : Context) (host : σ) :
    Shows (ofSource source context host).start.2 [[]] := by
  refine ⟨rfl, rfl, fun t ht => ?_⟩
  rw [tokens_start, tokens_ofSource] at ht
  exact ⟨Token.text_ne_nil_of_mem_lex ht, Token.text_of_openAngle_of_mem_lex ht,
    Token.kind_ne_endOfInput_of_mem_lex ht⟩

/-- What is left to the host becomes a node of its own. -/
theorem Shows.leaveRest (h : Shows c [f]) (hp : c.pending = []) :
    Shows c.leaveRest [f ++ flushTrees .unparsed (c.held.reverse ++ c.ahead).reverse] ∧
      c.leaveRest.pending = [] := by
  have hback := (Moves.putBack c).shows h
  have hpending : c.putBack.pending = [] := hp
  rw [← ahead_putBack]
  unfold Cursor.leaveRest
  dsimp only
  by_cases ha : c.putBack.ahead = []
  · rw [if_pos (by simp [atEnd, ha]), ha]
    exact ⟨by simpa using hback, hpending⟩
  · rw [if_neg (by simpa [atEnd] using ha)]
    obtain ⟨hstart, hm⟩ := hback.start
    rw [hpending, flushTrees_nil, List.append_nil] at hstart hm
    have hread := (Moves.bumpN _ c.putBack.start.2.ahead.length).shows hstart
    have hall : (c.putBack.start.2.bumpN c.putBack.start.2.ahead.length).pending =
        c.putBack.ahead.reverse := by
      rw [bumpN_eq (by rw [held_start, held_putBack])]
      simp [Cursor.start, hpending]
    have hleaves := (Emits.flushRaw _).shows hread
    rw [hall, List.reverse_reverse, List.nil_append] at hleaves
    have hnode := hleaves.complete hm .unparsed
    rw [flushTrees, if_neg (by simpa using ha), List.reverse_reverse]
    refine ⟨by simpa [Cursor.flushRaw] using hnode, pending_complete ..⟩

/-- The result shows what the cursor behind the unit shows. -/
theorem result_of_shows {p : Parse σ} (h : Shows c [f])
    (hok : ((c.flush .literal).leaveRest.complete ⟨0⟩ .root).result = .ok p) :
    p.tree = .node .root (f ++ flushTrees .literal c.pending ++
      flushTrees .unparsed (c.held.reverse ++ c.ahead).reverse) ∧
      p.diagnostics = c.diagnostics.toList := by
  obtain ⟨hleft, hpending⟩ := (h.flush .literal).leaveRest (pending_flush c _)
  obtain ⟨-, -, hdiagnostics, hheld, hahead, -⟩ := Parse.adds_leaveRest (c.flush .literal)
  rw [ahead_flush, held_flush] at hleft
  refine ⟨?_, ?_⟩
  · have htree := Parse.result_tree hleft hheld hahead hok
    rwa [hpending, flushTrees_nil, List.append_nil] at htree
  · rw [diagnostics_of_result hok, diagnostics_complete, hdiagnostics, diagnostics_flush]

end Cursor

end TemplateMarkup
