import TemplateMarkup.Proofs.Parallel.Units

/-! # Results of two parses side by side

Two parses begin side by side if the tokens of their sources are alike. What they
have in common behind the unit is what their results have in common, since the
root of a tree is made of what the last cursor shows and leaves to the host. -/

namespace TemplateMarkup

open Cursor

variable {σ : Type} {k : Comparison} {code : EmbeddedCode σ} {c d : Cursor σ}

namespace Cursor

/-! ## Behind the unit -/

/-- Two runs that have this in common behind their units return this. -/
theorem Ended.results (h : Ended k [] c d) {p q : Parse σ}
    (hp : ((c.flush .literal).leaveRest.complete ⟨0⟩ .root).result = .ok p)
    (hq : ((d.flush .literal).leaveRest.complete ⟨0⟩ .root).result = .ok q) :
    k.Resembles [p.tree] [q.tree] ∧ List.Forall₂ k.Reports p.diagnostics q.diagnostics := by
  obtain ⟨f, g, fs, gs, hfs, hgs, hframes⟩ := h.frames
  cases hframes with
  | root hfg =>
    obtain ⟨htree, hreports⟩ := result_of_shows hfs hp
    obtain ⟨htree', hreports'⟩ := result_of_shows hgs hq
    rw [h.left_held, List.reverse_nil, List.nil_append] at htree
    rw [h.right_held, List.reverse_nil, List.nil_append] at htree'
    rw [htree, htree', hreports, hreports']
    exact ⟨.node .root (hfg.append h.rest), h.reports⟩

/-! ## At the beginning -/

theorem sound_root (strict : Prop) (source : List Char) (context : Context) (host : σ) :
    Sound strict [.placeholder] [] (ofSource source context host).start.2 :=
  sound_unread (by rw [tokens_start, tokens_ofSource]) rfl rfl rfl rfl rfl

end Cursor

namespace Comparison

variable {source source' : String}

/-- Sources whose tokens are alike are read side by side. -/
theorem parallel_ofSource (hsource : k.source = source.toList)
    (hlex : k.Alikes (Token.lex source.toList) (Token.lex source'.toList)) (host : σ) :
    Parallel k []
      (ofSource source.toList { options := k.options, caseSensitive := k.caseSensitive }
        host).start.2
      (ofSource source'.toList { options := k.otherOptions, caseSensitive := k.caseSensitive }
        host).start.2 where
  left := sound_root False ..
  right := sound_root False ..
  flushed := .nil
  pending := .nil
  held := .nil
  ahead := hlex
  lastNode := rfl
  options := rfl
  caseSensitive := rfl
  context := rfl
  reports := .nil
  text := by rw [text_congr (tokens_start _), text_ofSource, hsource]
  frames := ⟨_, _, shows_root .., shows_root .., .root .nil⟩
  none_held := rfl

/-- Two parses of sources whose tokens are alike have results that resemble each other. -/
theorem parses_resemble (ha : code.Agrees k) (hsource : k.source = source.toList)
    (hlex : k.Alikes (Token.lex source.toList) (Token.lex source'.toList)) (host : σ)
    (nesting? : Option Nesting) (hcase : k.caseSensitive = nesting?.any Nesting.caseSensitive) :
    ∃ p q, Parser.parse ⟨some k.options, code, host⟩ nesting? source = .ok p ∧
      Parser.parse ⟨some k.otherOptions, code, host⟩ nesting? source' = .ok q ∧
      k.Resembles [p.tree] [q.tree] ∧ List.Forall₂ k.Reports p.diagnostics q.diagnostics := by
  obtain ⟨p, hp, -⟩ :=
    Parser.finish_covers ha.lawful k.options host nesting? source trivial
  obtain ⟨q, hq, -⟩ :=
    Parser.finish_covers ha.lawful k.otherOptions host nesting? source' trivial
  refine ⟨p, q, by rw [Parser.parse_eq, hp]; rfl, by rw [Parser.parse_eq, hq]; rfl, ?_⟩
  have hstart := parallel_ofSource hsource hlex host
  rw [hcase] at hstart
  cases nesting? with
  | none => exact (hstart.block ha).results hp hq
  | some nesting => exact (hstart.nestedBlock ha nesting).ended.results hp hq

end Comparison

/-- A parser without nesting sequences parses one unit of markup. -/
theorem Parser.parseBlock_of_parse {options : Options} {host : σ} {source : String} {p : Parse σ}
    (h : Parser.parse ⟨some options, code, host⟩ none source = .ok p) :
    parseBlock options code host source = .ok p := by
  unfold Parser.parse at h
  dsimp only at h
  generalize parseBlock options code host source = result at h ⊢
  cases result with
  | error => cases h
  | ok => rw [Except.ok.inj h]

end TemplateMarkup
