import TemplateMarkup.Parse
import TemplateMarkup.Tree.Outline

/-! # Trees with other texts in their leaves

Where the texts of the leaves are replaced and nothing else, a tree keeps its
nodes. If the texts keep their widths too, it keeps its outline. -/

namespace TemplateMarkup.Tree

mutual

/-- The tree with the text of each leaf replaced. -/
def mapLeaves (f : Kind → List Char → List Char) : Tree → Tree
  | token kind text => token kind (f kind text)
  | node kind children => node kind (mapLeavesOf f children)

def mapLeavesOf (f : Kind → List Char → List Char) : List Tree → List Tree
  | [] => []
  | t :: ts => t.mapLeaves f :: mapLeavesOf f ts

end

variable {f : Kind → List Char → List Char}

theorem mapLeavesOf_eq_map (ts : List Tree) : mapLeavesOf f ts = ts.map (mapLeaves f) := by
  induction ts with
  | nil => rfl
  | cons t ts ih => rw [mapLeavesOf, ih, List.map_cons]

theorem mapLeavesOf_append (a b : List Tree) :
    mapLeavesOf f (a ++ b) = mapLeavesOf f a ++ mapLeavesOf f b := by
  simp only [mapLeavesOf_eq_map, List.map_append]

mutual

theorem mapLeaves_self : (t : Tree) → t.mapLeaves (fun _ text => text) = t
  | token _ _ => rfl
  | node kind children => congrArg (node kind) (mapLeavesOf_self children)

theorem mapLeavesOf_self : (ts : List Tree) → mapLeavesOf (fun _ text => text) ts = ts
  | [] => rfl
  | t :: ts => by rw [mapLeavesOf, mapLeaves_self t, mapLeavesOf_self ts]

end

theorem child?_mapLeaves (t : Tree) (kind : Kind) :
    (t.mapLeaves f).child? kind = (t.child? kind).map (mapLeaves f) := by
  have hsame : (fun child : Tree => child.isNode && child.kind == kind) ∘ mapLeaves f =
      fun child => child.isNode && child.kind == kind := by
    funext child
    cases child <;> rfl
  cases t with
  | token => rfl
  | node _ children =>
    simp only [mapLeaves, child?, Tree.children, mapLeavesOf_eq_map, List.find?_map, hsame]

/-! ## Texts of the same width -/

variable {g : List Char → List Char}

mutual

theorem text_mapLeaves (h : ∀ a b, g (a ++ b) = g a ++ g b) (hnil : g [] = []) :
    (t : Tree) → (t.mapLeaves fun _ => g).text = g t.text
  | token _ _ => rfl
  | node _ children => textOf_mapLeavesOf h hnil children

theorem textOf_mapLeavesOf (h : ∀ a b, g (a ++ b) = g a ++ g b) (hnil : g [] = []) :
    (ts : List Tree) → textOf (mapLeavesOf (fun _ => g) ts) = g (textOf ts)
  | [] => hnil.symm
  | t :: ts => by
    rw [mapLeavesOf, textOf, textOf, h, text_mapLeaves h hnil t, textOf_mapLeavesOf h hnil ts]

end

mutual

theorem width_mapLeaves (h : ∀ a, Text.width (g a) = Text.width a) :
    (t : Tree) → (t.mapLeaves fun _ => g).width = t.width
  | token _ text => h text
  | node _ children => widthOf_mapLeavesOf h children

theorem widthOf_mapLeavesOf (h : ∀ a, Text.width (g a) = Text.width a) :
    (ts : List Tree) → widthOf (mapLeavesOf (fun _ => g) ts) = widthOf ts
  | [] => rfl
  | t :: ts => by
    rw [mapLeavesOf, widthOf, widthOf, width_mapLeaves h t, widthOf_mapLeavesOf h ts]

end

/-- The entry with the text of its leaf replaced. -/
def Entry.mapText (g : List Char → List Char) (e : Entry) : Entry :=
  { e with text? := e.text?.map g }

mutual

/-- Texts of the same width leave every depth, kind and range as it is. -/
theorem outlineFrom_mapLeaves (h : ∀ a, Text.width (g a) = Text.width a) (depth start : Nat) :
    (t : Tree) → (t.mapLeaves fun _ => g).outlineFrom depth start =
      (t.outlineFrom depth start).map (·.mapText g)
  | token _ text => by
    rw [mapLeaves, outlineFrom, outlineFrom, h]
    rfl
  | node _ children => by
    rw [mapLeaves, outlineFrom, outlineFrom, widthOf_mapLeavesOf h,
      outlineOf_mapLeavesOf h (depth + 1) start children, List.map_cons]
    rfl

theorem outlineOf_mapLeavesOf (h : ∀ a, Text.width (g a) = Text.width a) (depth start : Nat) :
    (ts : List Tree) → outlineOf depth start (mapLeavesOf (fun _ => g) ts) =
      (outlineOf depth start ts).map (·.mapText g)
  | [] => rfl
  | t :: ts => by
    rw [mapLeavesOf, outlineOf, outlineOf, outlineFrom_mapLeaves h depth start t,
      width_mapLeaves h t, outlineOf_mapLeavesOf h depth (start + t.width) ts, List.map_append]

end

theorem outline_mapLeaves (h : ∀ a, Text.width (g a) = Text.width a) (t : Tree) :
    (t.mapLeaves fun _ => g).outline = t.outline.map (·.mapText g) := outlineFrom_mapLeaves h 0 0 t

end TemplateMarkup.Tree

namespace TemplateMarkup.Parse

open TemplateMarkup.Tree

variable {σ : Type} {p q : Parse σ} {g : List Char → List Char}

/-- Trees with the same leaves but for their texts split the source alike. -/
theorem split_of_mapLeaves (h : ∀ a b, g (a ++ b) = g a ++ g b) (hnil : g [] = [])
    (htree : p.tree.mapLeaves (fun _ => g) = q.tree.mapLeaves fun _ => g) :
    p.markupText?.map g = q.markupText?.map g ∧ p.unparsedText?.map g = q.unparsedText?.map g := by
  have htext (t : Tree) (kind : Kind) : ((t.child? kind).map Tree.text).map g =
      ((t.mapLeaves fun _ => g).child? kind).map Tree.text := by
    rw [child?_mapLeaves, Option.map_map, Option.map_map]
    refine Option.map_congr fun t _ => ?_
    exact (text_mapLeaves h hnil t).symm
  unfold markupText? unparsedText?
  rw [htext, htext, htext, htext, htree]
  exact ⟨rfl, rfl⟩

end TemplateMarkup.Parse
