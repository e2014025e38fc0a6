import TemplateMarkup.Proofs.Placement
import TemplateMarkup.Proofs.TokenNodes

/-! # Line endings that code asks for

The nodes of tokens in a tree are its `Region`s, in the order of the source. `Answered`
says which line endings may stand in an ephemeral literal. One is the line ending directly
behind the code that asked for it, or directly behind a comment. The other answers a
request that was left over: the code stands among the attributes of a tag, or last in
the value of one, or in front of a token at which scans stop. No such request is
answered twice, and none is answered behind other code. -/

namespace TemplateMarkup

open TemplateMarkup.Tree

/-- Scans of content stop in front of tokens of these kinds. -/
def Kind.endsScan : Kind → Bool
  | .openAngle | .closeAngle | .doubleHyphen | .closeBracket | .questionMark => true
  | _ => false

/-- Where a node of tokens stands. -/
inductive Site where
  /-- Among the attributes of a tag, or in one. -/
  | tag
  /-- In the value of an attribute. -/
  | value
  | content
  deriving DecidableEq

namespace Site

variable {site : Site} {kind : Kind}

/-- The site at the beginning of a node. -/
def inside : Kind → Site
  | .tagBlock | .attributeBlock => .tag
  | .attributeValue => .value
  | _ => .content

/-- The site behind a tree. The attributes of a tag end with its `>`. -/
def behind (site : Site) : Tree → Site
  | .node .literal ts =>
    if site = .tag ∧ ts.any (fun t => t.kind == .closeAngle) then .content else site
  | _ => site

/-- The site behind neighbouring trees. -/
def after (site : Site) (ts : List Tree) : Site := ts.foldl behind site

@[simp] theorem after_nil (site : Site) : site.after [] = site := rfl

theorem after_append (site : Site) (ts us : List Tree) :
    site.after (ts ++ us) = (site.after ts).after us := List.foldl_append

theorem behind_node (h : kind ≠ .literal) (ts : List Tree) :
    site.behind (.node kind ts) = site := by
  cases kind with
  | literal => exact absurd rfl h
  | _ => rfl

/-- Without a `>` the attributes go on. -/
theorem behind_tag {n : TokenNode} (h : ∀ t ∈ n.tokens, t.kind ≠ .closeAngle) :
    Site.behind .tag n.tree = .tag := by
  unfold behind
  split
  · next ts heq =>
    refine if_neg fun hclose => ?_
    obtain ⟨u, hu, hk⟩ := List.any_eq_true.mp hclose.2
    rw [← (Tree.node.inj heq).2] at hu
    obtain ⟨t, ht, rfl⟩ := List.mem_map.mp hu
    exact h t ht (beq_iff_eq.mp hk)
  · rfl

theorem behind_ne_value (h : site ≠ .value) (t : Tree) : site.behind t ≠ .value := by
  unfold behind
  split
  · split
    · decide
    · exact h
  · exact h

theorem behind_value (t : Tree) : Site.behind .value t = .value := by
  unfold behind
  split
  · exact if_neg fun h => absurd h.1 (by decide)
  · rfl

end Site

/-- A node of tokens and its site. -/
structure Region extends TokenNode where
  site : Site

namespace Tree

mutual

/-- The leaves of a tree. -/
def leaves : Tree → List Token
  | token kind text => [⟨kind, text⟩]
  | node _ children => leavesOf children

def leavesOf : List Tree → List Token
  | [] => []
  | t :: ts => t.leaves ++ leavesOf ts

end

theorem leavesOf_map_ofToken (ts : List Token) : leavesOf (ts.map ofToken) = ts := by
  induction ts with
  | nil => rfl
  | cons t ts ih => exact congrArg (t :: ·) ih

mutual

/-- The nodes of tokens in a tree, in the order of the source. A token outside all of them counts as
one of its own kind. -/
def regions (site : Site) : Tree → List Region
  | token kind text => [⟨⟨kind, [⟨kind, text⟩]⟩, site⟩]
  | node kind children =>
    if kind.holdsTokens then [⟨⟨kind, leavesOf children⟩, site⟩]
    else regionsOf (.inside kind) children

def regionsOf (site : Site) : List Tree → List Region
  | [] => []
  | t :: ts => t.regions site ++ regionsOf (site.behind t) ts

end

mutual

/-- Each leaf lies in one of these nodes. -/
theorem leaves_regions (site : Site) :
    (t : Tree) → (t.regions site).flatMap (·.tokens) = t.leaves
  | token _ _ => rfl
  | node kind children => by
    rw [regions, leaves]
    split
    · exact List.append_nil _
    · exact leavesOf_regionsOf _ children

theorem leavesOf_regionsOf (site : Site) :
    (ts : List Tree) → (regionsOf site ts).flatMap (·.tokens) = leavesOf ts
  | [] => rfl
  | t :: ts => by
    rw [regionsOf, List.flatMap_append, leaves_regions site t, leavesOf_regionsOf _ ts, leavesOf]

end

theorem regionsOf_append (site : Site) (ts us : List Tree) :
    regionsOf site (ts ++ us) = regionsOf site ts ++ regionsOf (site.after ts) us := by
  induction ts generalizing site with
  | nil => rfl
  | cons t ts ih =>
    rw [List.cons_append, regionsOf, regionsOf, ih, List.append_assoc]
    rfl

@[simp] theorem regionsOf_singleton (site : Site) (t : Tree) :
    regionsOf site [t] = t.regions site := List.append_nil _

theorem regions_node {kind : Kind} (h : kind.holdsTokens = false) (site : Site) (ts : List Tree) :
    (node kind ts).regions site = regionsOf (.inside kind) ts := by
  simp [regions, h]

theorem regions_tree {n : TokenNode} (h : n.kind.holdsTokens = true) (site : Site) :
    n.tree.regions site = [⟨n, site⟩] := by
  simp [TokenNode.tree, regions, h, leavesOf_map_ofToken]

end Tree

/-! ## The law -/

namespace Region

variable {r code next : Region} {rs front more : List Region}

/-- Neither code nor text that is not rendered. -/
def Passive (r : Region) : Prop := r.kind ≠ .codeBlock ∧ r.kind ≠ .ephemeral

/-- A line ending that is not rendered. -/
def EndsUnrendered (r : Region) : Prop := r.kind = .ephemeral ∧ ∃ t ∈ r.tokens, t.kind = .newline

/-- Every such line ending comes directly behind code or a comment. -/
def Direct (rs : List Region) : Prop :=
  ∀ ⦃before : List Region⦄ ⦃r : Region⦄, before ++ [r] <+: rs → r.EndsUnrendered →
    ∃ front last, before = front ++ [last] ∧ (last.kind = .codeBlock ∨ last.kind = .inlineComment)

/-- Behind the code comes a node in front of which its request may be left over. -/
def LeavesOver (code next : Region) : Prop :=
  match code.site with
  | .tag => True
  | .value => next.site ≠ .value
  | .content => ∃ t ∈ next.tokens.head?, t.kind.endsScan = true

/-- The request of the last code is left over. -/
inductive Late : List Region → Prop
  | intro {front more : List Region} {code next : Region} : code.kind = .codeBlock →
      code.LeavesOver next → (∀ r ∈ next :: more, r.Passive) → Late (front ++ code :: next :: more)

/-- A line ending behind these nodes may be one that is not rendered. -/
inductive Allows : List Region → Prop
  | direct {front : List Region} {r : Region} :
      r.kind = .codeBlock ∨ r.kind = .inlineComment → Allows (front ++ [r])
  | late {rs : List Region} : Late rs → Allows rs

/-- Every line ending that is not rendered may be one. -/
def Answered (rs : List Region) : Prop :=
  ∀ ⦃before : List Region⦄ ⦃r : Region⦄, before ++ [r] <+: rs → r.EndsUnrendered → Allows before

theorem answered_nil : Answered [] := by
  intro before r h
  exact absurd (List.prefix_nil.mp h) (List.append_ne_nil_of_right_ne_nil _ (List.cons_ne_nil _ _))

theorem Answered.concat (h : Answered rs) (hr : r.EndsUnrendered → Allows rs) :
    Answered (rs ++ [r]) := by
  intro before u hu hline
  rcases List.prefix_concat_iff.mp hu with heq | hpre
  · obtain ⟨rfl, hlast⟩ := List.append_inj' heq rfl
    obtain rfl : u = r := List.singleton_inj.mp hlast
    exact hr hline
  · exact h hpre hline

theorem Answered.rendered (h : Answered rs) (hr : r.kind ≠ .ephemeral) : Answered (rs ++ [r]) :=
  h.concat fun hline => absurd hline.1 hr

theorem Late.concat (h : Late rs) (hr : r.Passive) : Late (rs ++ [r]) := by
  cases h with
  | @intro front more code next hcode hover hpassive =>
    rw [List.append_assoc, List.cons_append, List.cons_append]
    refine .intro hcode hover fun u hu => ?_
    rw [← List.cons_append] at hu
    rcases List.mem_append.mp hu with hu | hu
    · exact hpassive u hu
    · rwa [List.mem_singleton.mp hu]

end Region

end TemplateMarkup
