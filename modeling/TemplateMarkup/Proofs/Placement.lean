import TemplateMarkup.Proofs.Nodes

/-! # Which nodes stand where

Some nodes hold tokens and nothing else, the others hold nodes. `Tree.Placed`
says of a tree that it may stand in a node of a kind, and that this holds all the
way down; a parse grows its tree by trees that are placed. `Tree.Schematic` is
what a reader of the tree gets from that. -/

namespace TemplateMarkup

namespace Kind

/-- A node whose children are tokens. -/
def holdsTokens : Kind → Bool
  | .literal | .ephemeral | .markupTransition | .metacode | .codeBlock | .inlineComment
  | .unparsed => true
  | _ => false

/-- A node whose children are nodes, apart from a `>` that the source left out. -/
def holdsNodes : Kind → Bool
  | .root | .markupBlock | .tagBlock | .commentBlock | .attributeBlock | .attributeValue => true
  | _ => false

/-- Whether a node of the first kind may have one of the second among its children. -/
def mayHold (parent child : Kind) : Bool :=
  match child with
  | .literal | .ephemeral | .metacode | .codeBlock | .inlineComment => parent.holdsNodes
  | .markupTransition => parent == .markupBlock
  | .tagBlock | .commentBlock => parent == .markupBlock || parent == .tagBlock
  | .attributeBlock => parent == .tagBlock
  | .attributeValue => parent == .attributeBlock
  | .markupBlock | .unparsed => parent == .root
  | _ => false

/-- A node in which no element may lie, however deep. -/
def barsTags (kind : Kind) : Bool :=
  kind == .commentBlock || kind == .attributeBlock || kind == .attributeValue

variable {parent child : Kind}

theorem holdsNodes_of_mayHold (h : parent.mayHold child = true) : parent.holdsNodes = true := by
  cases child <;> simp_all [mayHold] <;> rcases h with rfl | rfl <;> rfl

/-- Literal text, code and comments may stand in every node of nodes. -/
theorem mayHold_literal (h : parent.holdsNodes = true) : parent.mayHold .literal = true := h

/-- Where no element may lie, no node that could hold one may stand either. -/
theorem barsTags_of_mayHold (hbars : parent.barsTags = true) (h : parent.mayHold child = true) :
    child ≠ .tagBlock ∧ (child.holdsNodes = true → child.barsTags = true) := by
  simp only [barsTags, Bool.or_eq_true, beq_iff_eq] at hbars
  rcases hbars with (rfl | rfl) | rfl <;> cases child <;> simp_all [mayHold, holdsNodes, barsTags]

end Kind

namespace Tree

/-- The value of an attribute. -/
def isValue (t : Tree) : Bool := t.isNode && t.kind == .attributeValue

/-- Trees that may stand in a node of the kind. -/
inductive Placed : Kind → Tree → Prop
  /-- The `>` that the source left out. -/
  | missing : Placed .tagBlock (.token .closeAngle [])
  | leaves {place kind : Kind} {ts : List Token} : place.mayHold kind = true →
      kind.holdsTokens = true → ts ≠ [] → (∀ t ∈ ts, t.text ≠ []) →
      Placed place (.node kind (ts.map ofToken))
  | node {place kind : Kind} {children : List Tree} : place.mayHold kind = true →
      kind.holdsNodes = true → (∀ t ∈ children, Placed kind t) → children.countP isValue ≤ 1 →
      Placed place (.node kind children)

/-- What a node of a kind may hold. -/
inductive Filled (kind : Kind) : List Tree → Prop
  | leaves {ts : List Token} : kind.holdsTokens = true → ts ≠ [] → (∀ t ∈ ts, t.text ≠ []) →
      Filled kind (ts.map ofToken)
  | nodes {children : List Tree} : kind.holdsNodes = true → (∀ t ∈ children, Placed kind t) →
      children.countP isValue ≤ 1 → Filled kind children

mutual

/-- A tree with all trees below it. -/
def subtrees : Tree → List Tree
  | token kind text => [token kind text]
  | node kind children => node kind children :: subtreesOf children

def subtreesOf : List Tree → List Tree
  | [] => []
  | t :: ts => t.subtrees ++ subtreesOf ts

end

variable {place kind : Kind} {t u : Tree} {children ts : List Tree}

theorem mem_subtreesOf : u ∈ subtreesOf ts ↔ ∃ t ∈ ts, u ∈ t.subtrees := by
  induction ts with
  | nil => simp [subtreesOf]
  | cons t ts ih => simp [subtreesOf, ih]

theorem Placed.filled (h : Placed place (.node kind children)) :
    place.mayHold kind = true ∧ Filled kind children := by
  cases h with
  | leaves hplace hkind hne htext => exact ⟨hplace, .leaves hkind hne htext⟩
  | node hplace hkind hchildren hvalues => exact ⟨hplace, .nodes hkind hchildren hvalues⟩

theorem exists_token_of_mem {us : List Token} (h : t ∈ us.map ofToken) :
    ∃ kind text, t = .token kind text := by
  obtain ⟨u, -, rfl⟩ := List.mem_map.mp h
  exact ⟨u.kind, u.text, rfl⟩

/-- Only attributes have values. -/
theorem countP_of_placed (h : ∀ t ∈ ts, Placed place t) (hplace : place ≠ .attributeBlock) :
    ts.countP isValue = 0 := by
  refine List.countP_eq_zero.mpr fun t ht hvalue => hplace ?_
  cases h t ht with
  | missing => cases hvalue
  | @leaves _ kind _ hkind | @node _ kind _ hkind =>
    have hvalue : kind = .attributeValue := by simpa [isValue, isNode, Tree.kind] using hvalue
    simpa [hvalue, Kind.mayHold] using hkind

/-- Below a tree that is placed, every node is filled as it may be. -/
theorem Placed.filled_of_mem (h : Placed place t) (hmem : .node kind children ∈ t.subtrees) :
    Filled kind children := by
  induction h with
  | missing => simp [subtrees] at hmem
  | @leaves place k us hplace hkind hne htext =>
    rw [subtrees, List.mem_cons, mem_subtreesOf] at hmem
    rcases hmem with heq | ⟨u, hu, hmem⟩
    · cases heq
      exact .leaves hkind hne htext
    · obtain ⟨_, _, rfl⟩ := exists_token_of_mem hu
      simp [subtrees] at hmem
  | node hplace hkind hchildren hvalues ih =>
    rw [subtrees, List.mem_cons, mem_subtreesOf] at hmem
    rcases hmem with heq | ⟨u, hu, hmem⟩
    · cases heq
      exact .nodes hkind hchildren hvalues
    · exact ih u hu hmem

theorem Placed.no_tags (h : Placed place t) (hbars : place.barsTags = true) :
    .tagBlock ∉ t.nodeKinds := by
  induction h with
  | missing => simp [nodeKinds]
  | @leaves place kind us hplace hkind hne htext =>
    rw [nodeKinds, List.mem_cons, mem_nodeKindsOf]
    rintro (heq | ⟨u, hu, hmem⟩)
    · exact (Kind.barsTags_of_mayHold hbars hplace).1 heq.symm
    · obtain ⟨_, _, rfl⟩ := exists_token_of_mem hu
      simp [nodeKinds] at hmem
  | node hplace hkind hchildren hvalues ih =>
    obtain ⟨hkindne, hinner⟩ := Kind.barsTags_of_mayHold hbars hplace
    rw [nodeKinds, List.mem_cons, mem_nodeKindsOf]
    rintro (heq | ⟨u, hu, hmem⟩)
    · exact hkindne heq.symm
    · exact ih u hu (hinner hkind) hmem

/-- What holds of every node in the tree of a parse. -/
structure Schematic (tree : Tree) : Prop where
  root : ∃ children, tree = .node .root children
  /-- A node of tokens has one at least, and no token in it is empty. -/
  tokens {kind : Kind} {children : List Tree} : .node kind children ∈ tree.subtrees →
    kind.holdsTokens = true →
    children ≠ [] ∧ ∀ t ∈ children, ∃ kind text, t = .token kind text ∧ text ≠ []
  /-- Every token that is not empty stands in such a node. -/
  leaves {kind : Kind} {children : List Tree} : .node kind children ∈ tree.subtrees →
    ∀ tokenKind text, .token tokenKind text ∈ children → text ≠ [] → kind.holdsTokens = true
  /-- The other nodes hold nodes, apart from a `>` that is missing in a tag. -/
  nodes {kind : Kind} {children : List Tree} : .node kind children ∈ tree.subtrees →
    kind.holdsNodes = true →
    ∀ t ∈ children, t.isNode = true ∨ kind = .tagBlock ∧ t = .token .closeAngle []
  /-- Transitions, attributes and values stand in nodes of one kind only. -/
  places {parent kind : Kind} {children inner : List Tree} :
    .node parent children ∈ tree.subtrees → .node kind inner ∈ children →
    (kind = .markupTransition → parent = .markupBlock) ∧
      (kind = .attributeBlock → parent = .tagBlock) ∧
      (kind = .attributeValue → parent = .attributeBlock)
  oneValue {children : List Tree} : .node .attributeBlock children ∈ tree.subtrees →
    children.countP isValue ≤ 1
  /-- No element lies in a comment, an attribute or a value, however deep. -/
  noTags {kind : Kind} {children : List Tree} : .node kind children ∈ tree.subtrees →
    kind = .commentBlock ∨ kind = .attributeBlock ∨ kind = .attributeValue →
    .tagBlock ∉ nodeKindsOf children

theorem Filled.isNode_or (h : Filled kind children) (hkind : kind.holdsNodes = true) :
    ∀ t ∈ children, t.isNode = true ∨ kind = .tagBlock ∧ t = .token .closeAngle [] := by
  cases h with
  | leaves htokens => cases kind <;> simp [Kind.holdsNodes, Kind.holdsTokens] at hkind htokens
  | nodes _ hchildren _ =>
    intro t ht
    cases hchildren t ht with
    | missing => exact .inr ⟨rfl, rfl⟩
    | leaves | node => exact .inl rfl

/-- A root filled with trees that may stand in it has the schema. -/
theorem schematic_of_filled (h : Filled .root children) : Schematic (.node .root children) := by
  have hfilled {kind : Kind} {inner : List Tree}
      (hmem : .node kind inner ∈ (Tree.node .root children).subtrees) : Filled kind inner := by
    rw [subtrees, List.mem_cons, mem_subtreesOf] at hmem
    rcases hmem with heq | ⟨u, hu, hmem⟩
    · cases heq
      exact h
    · cases h with
      | leaves hkind => cases hkind
      | nodes _ hchildren _ => exact (hchildren u hu).filled_of_mem hmem
  refine ⟨⟨children, rfl⟩, ?_, ?_, ?_, ?_, ?_, ?_⟩
  · intro kind inner hmem hkind
    cases hfilled hmem with
    | leaves _ hne htext =>
      refine ⟨by simpa using hne, fun t ht => ?_⟩
      obtain ⟨u, hu, rfl⟩ := List.mem_map.mp ht
      exact ⟨u.kind, u.text, rfl, htext u hu⟩
    | nodes hnodes => cases kind <;> simp [Kind.holdsNodes, Kind.holdsTokens] at hkind hnodes
  · intro kind inner hmem tokenKind text htoken htext
    cases hfilled hmem with
    | leaves hkind => exact hkind
    | nodes _ hchildren _ =>
      cases hchildren _ htoken
      exact absurd rfl htext
  · intro kind inner hmem hkind
    exact (hfilled hmem).isNode_or hkind
  · intro parent kind siblings inner hmem hinner
    have hplace : parent.mayHold kind = true := by
      cases hfilled hmem with
      | leaves =>
        obtain ⟨_, _, heq⟩ := exists_token_of_mem hinner
        cases heq
      | nodes _ hchildren _ => exact (hchildren _ hinner).filled.1
    refine ⟨?_, ?_, ?_⟩ <;> rintro rfl <;> simpa [Kind.mayHold] using hplace
  · intro inner hmem
    cases hfilled hmem with
    | leaves hkind => cases hkind
    | nodes _ _ hvalues => exact hvalues
  · intro kind inner hmem hkind
    rw [mem_nodeKindsOf]
    rintro ⟨t, ht, htag⟩
    have hbars : kind.barsTags = true := by rcases hkind with rfl | rfl | rfl <;> rfl
    cases hfilled hmem with
    | leaves =>
      obtain ⟨_, _, rfl⟩ := exists_token_of_mem ht
      simp [nodeKinds] at htag
    | nodes _ hchildren _ => exact (hchildren t ht).no_tags hbars htag

end Tree

end TemplateMarkup
