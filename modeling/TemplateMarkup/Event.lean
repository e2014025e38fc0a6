import TemplateMarkup.Kind

/-!
Events: the order in which a parser opens nodes, adds tokens and closes nodes.

A list of events describes a tree flatly. A placeholder keeps the place of a start whose kind is
not known yet; one that is never filled in has no effect.
-/

namespace TemplateMarkup

inductive Event where
  | start (kind : Kind)
  /-- One leaf made of the next `count` tokens. A leaf of none stands for a token that the source
  left out. -/
  | token (kind : Kind) (count : Nat)
  | finish
  | placeholder
  deriving DecidableEq, Repr, Inhabited

end TemplateMarkup
