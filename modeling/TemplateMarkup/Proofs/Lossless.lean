import TemplateMarkup.Proofs.Scripts
import TemplateMarkup.Proofs.Shape

/-! # Nothing of a source is lost

A parse with lawful code never fails, and its tree covers the source: one unit
of markup, and the rest behind it. Scripted code is lawful as long as it goes
back to tokens only, so this holds of every script, in every order of steps and
with every call inside another. -/

namespace TemplateMarkup

open Cursor Event

variable {σ : Type} {code : EmbeddedCode σ} {ok : σ → Prop} {strict : Prop}

namespace Cursor

theorem tokens_ofSource (source : List Char) (context : Context) (host : σ) :
    (ofSource source context host).tokens = Token.lex source := by
  simp [tokens, ofSource]

theorem text_ofSource (source : List Char) (context : Context) (host : σ) :
    (ofSource source context host).text = source := by
  rw [text, tokens_ofSource, Token.textOf_lex]

/-- A cursor that has read nothing is sound, whatever its client finds before its own events. -/
theorem sound_unread {c : Cursor σ} {base : List Event} {source : List Char}
    (htokens : c.tokens = Token.lex source) (hfault : c.fault = none) (hoverrun : c.overrun = 0)
    (hevents : c.events.toList = base)
    (htaken : takenKinds base = c.flushed.reverse.map Token.kind) (hreports : c.diagnostics = #[]) :
    Sound strict base [] c where
  fault := hfault
  overrun := hoverrun
  nonempty t ht := Token.text_ne_nil_of_mem_lex (htokens ▸ ht)
  taken := hevents ▸ htaken
  balanced := ⟨[], by rw [hevents, List.append_nil], Balanced.nil⟩
  nodup := .nil
  waiting _ hm := absurd hm List.not_mem_nil
  owned _ i hle hget := by
    have hlt := (List.getElem?_eq_some_iff.mp hget).1
    rw [hevents] at hlt
    exact absurd hlt (Nat.not_lt.mpr hle)
  within _ _ hmem := by
    rw [hreports] at hmem
    exact absurd hmem List.not_mem_nil

/-- At the beginning of a source two nodes are started, the root and the unit. -/
theorem sound_ofSource (strict : Prop) (source : List Char) (context : Context) (host : σ) :
    Sound strict [.placeholder, .placeholder] []
      (ofSource source context host).start.2.start.2 :=
  sound_unread (by rw [tokens_start, tokens_start, tokens_ofSource]) rfl rfl rfl rfl rfl

@[simp] theorem host_run (c : Cursor σ) (body : Cursor σ → Cursor σ) :
    (c.run fun c => (body c.start.2).complete c.start.1 .markupBlock).host =
      (body c.start.2.start.2).host := by
  simp [run]

/-- Whatever reads the unit along a path, the run covers the source. -/
theorem run_covers (body : Cursor σ → Cursor σ) {source : List Char} {context : Context} {host : σ}
    (hbody : ∀ {c : Cursor σ}, Sound strict [.placeholder, .placeholder] [] c → ok (body c).host →
      Reaches strict [.placeholder, .placeholder] c [] 0 (body c) [])
    (hok : ok ((ofSource source context host).run fun c =>
      (body c.start.2).complete c.start.1 .markupBlock).host) :
    ∃ p, ((ofSource source context host).run fun c =>
        (body c.start.2).complete c.start.1 .markupBlock).result = .ok p ∧
      p.tree.Covers source ∧
      (strict → ((ofSource source context host).run fun c =>
        (body c.start.2).complete c.start.1 .markupBlock).Settled (Text.width source)) := by
  rw [host_run] at hok
  have hstart := sound_ofSource strict source context host
  have hread := hbody hstart hok
  have htext := hread.path.text_eq.trans ((text_congr (tokens_start _)).trans
    (text_congr (tokens_start _)))
  obtain ⟨p, hp, hcovers, -, -, hsettled⟩ := run_result rfl rfl hread.sound htext
  rw [text_ofSource] at hcovers hsettled
  exact ⟨p, hp, hcovers, hsettled⟩

end Cursor

/-! ## Parses -/

namespace Parser

/-- The cursor at the end of a parse. -/
def finish (options : Options) (code : EmbeddedCode σ) (host : σ) (nesting? : Option Nesting)
    (source : String) : Cursor σ :=
  match nesting? with
  | none => (ofSource source.toList { options } host).run (·.block code)
  | some nesting =>
    (ofSource source.toList { options, caseSensitive := nesting.caseSensitive } host).run
      (·.nestedBlock code nesting)

theorem parse_eq (options : Options) (code : EmbeddedCode σ) (host : σ)
    (nesting? : Option Nesting) (source : String) :
    Parser.parse ⟨some options, code, host⟩ nesting? source =
      (finish options code host nesting? source).result.mapError .fault := by
  cases nesting? <;> rfl

/-- What a parse reads in the node of its unit. -/
def content (code : EmbeddedCode σ) (nesting? : Option Nesting) (c : Cursor σ) : Cursor σ :=
  match nesting? with
  | none => (c.bumpWhile (·.kind.isTrivia)).blockContent code
  | some nesting => c.nestingContent code nesting

/-- A parse of either kind is a run over its content. -/
theorem finish_eq_run (options : Options) (code : EmbeddedCode σ) (host : σ)
    (nesting? : Option Nesting) (source : String) : finish options code host nesting? source =
      (ofSource source.toList { options, caseSensitive := nesting?.any Nesting.caseSensitive }
        host).run fun c => (content code nesting? c.start.2).complete c.start.1 .markupBlock := by
  cases nesting? <;> rfl

theorem reaches_content {base : List Event} {c : Cursor σ} (hl : code.Lawful strict ok)
    (nesting? : Option Nesting) (h : Sound strict base [] c)
    (hok : ok (content code nesting? c).host) :
    Reaches strict base c [] 0 (content code nesting? c) [] := by
  cases nesting? with
  | none => exact ((Reaches.refl h).bumpWhile _).blockContent hl hok
  | some nesting => exact (Reaches.refl h).nestingContent hl nesting hok

/-- With lawful code a parse covers its source. -/
theorem finish_covers (hl : code.Lawful strict ok) (options : Options) (host : σ)
    (nesting? : Option Nesting) (source : String)
    (hok : ok (finish options code host nesting? source).host) :
    ∃ p, (finish options code host nesting? source).result = .ok p ∧
      p.tree.Covers source.toList ∧
      (strict → (finish options code host nesting? source).Settled (Text.width source.toList)) := by
  rw [finish_eq_run] at hok ⊢
  exact run_covers (content code nesting?) (reaches_content hl nesting?) hok

end Parser

/-- The unit's text and the text left to the host make up a covered source. -/
theorem Tree.Covers.markupText {p : Parse σ} {source : List Char} (h : p.tree.Covers source) :
    ∃ markup, p.markupText? = some markup ∧ markup ++ p.unparsedText?.getD [] = source := by
  obtain ⟨htext, block, rest, htree, hrest⟩ := h
  refine ⟨Tree.textOf block, ?_, ?_⟩
  · rw [Parse.markupText?, htree]
    rfl
  · rw [Parse.unparsedText?, ← htext, htree]
    rcases hrest with rfl | ⟨unparsed, rfl, -⟩ <;>
      simp [Tree.child?, Tree.children, Tree.isNode, Tree.kind, Tree.text, Tree.textOf]

/-- What is left to the host is never empty. -/
theorem Tree.Covers.unparsedText_ne_nil {p : Parse σ} {source rest : List Char}
    (h : p.tree.Covers source) (hrest : p.unparsedText? = some rest) : rest ≠ [] := by
  obtain ⟨-, block, rest', htree, hunparsed⟩ := h
  rw [Parse.unparsedText?, htree] at hrest
  rcases hunparsed with rfl | ⟨unparsed, rfl, hne⟩
  · simp [Tree.child?, Tree.children, Tree.isNode, Tree.kind] at hrest
  · simp [Tree.child?, Tree.children, Tree.isNode, Tree.kind, Tree.text] at hrest
    exact hrest ▸ hne

theorem Tree.Covers.text_append {p : Parse σ} {source : List Char} (h : p.tree.Covers source) :
    p.markupText?.getD [] ++ p.unparsedText?.getD [] = source := by
  obtain ⟨markup, hmarkup, happend⟩ := h.markupText
  rw [hmarkup]
  exact happend

/-- With scripted code every parse builds a tree, which covers the source. The
script may do anything but go to a place behind the last token. -/
theorem Script.parse_covers (options : Options) (blocks comments : List (List Script.Step))
    (nesting? : Option Nesting) (source : String)
    (horderly : (Parser.finish options (.scripted ⟨blocks, comments, 0, 0, []⟩)
      ⟨blocks, comments, 0, 0, []⟩ nesting? source).host.Orderly) :
    ∃ p, Parser.parse ⟨some options, .scripted ⟨blocks, comments, 0, 0, []⟩,
        ⟨blocks, comments, 0, 0, []⟩⟩ nesting? source = .ok p ∧
      p.tree.Covers source.toList ∧
      p.markupText?.getD [] ++ p.unparsedText?.getD [] = source.toList := by
  obtain ⟨p, hp, hcovers, -⟩ := Parser.finish_covers (Script.lawful_scripted _) options
    ⟨blocks, comments, 0, 0, []⟩ nesting? source horderly
  refine ⟨p, ?_, hcovers, hcovers.text_append⟩
  rw [Parser.parse_eq, EmbeddedCode.scripted, hp]
  rfl

/-- A script that splits a token, puts one back, closes its node and runs code inside itself. -/
theorem Script.parse_covers_split :
    let blocks : List (List Script.Step) :=
      [[.start, .bump, .split 1, .advance, .rewind 4, .complete .codeBlock, .code]]
    (Parser.finish {} (.scripted ⟨blocks, [], 0, 0, []⟩) ⟨blocks, [], 0, 0, []⟩ none
      "<p>@xy</p>").host.Orderly ∧
    ∃ p, Parser.parse ⟨some {}, .scripted ⟨blocks, [], 0, 0, []⟩, ⟨blocks, [], 0, 0, []⟩⟩ none
        "<p>@xy</p>" = .ok p ∧
      p.tree.Covers "<p>@xy</p>".toList ∧
      p.markupText?.getD [] ++ p.unparsedText?.getD [] = "<p>@xy</p>".toList :=
  ⟨by decide +kernel, Script.parse_covers {} _ [] none "<p>@xy</p>" (by decide +kernel)⟩

end TemplateMarkup
