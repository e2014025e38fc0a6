import TemplateMarkup.Proofs.CodelessScans
import TemplateMarkup.Proofs.Regions

/-! # Following a request

A stretch of a parse `Carries` what is known of the regions so far on to those it adds.
Between two scans this is `Stands`: the line endings that are not rendered are
answered, and if one is still asked for, the code that asked for it is the last, and
the request is left over (`Due`). Accepting tokens and making nodes of them keeps it. -/

namespace TemplateMarkup

open TemplateMarkup.Tree Region

namespace Cursor

variable {σ : Type} {c d e : Cursor σ} {kind : Kind} {n : TokenNode} {site site' : Site} {r : Region}
  {rs : List Region} {P P' Q Q' R : Site → List Region → Prop}

/-! ## Stretches -/

/-- Trees are added to the innermost open node. If nothing fails, what holds of the site and of the
regions in front of the stretch carries over to those behind it. -/
structure Carries (P Q : Site → List Region → Prop) (c d : Cursor σ) : Prop where
  fault : d.fault = none → c.fault = none
  carries ⦃f : List Tree⦄ ⦃fs : List (List Tree)⦄ ⦃site : Site⦄ ⦃rs : List Region⦄ : d.fault = none →
    Shows c (f :: fs) → P site rs → ∃ ts, Shows d ((f ++ ts) :: fs) ∧
      Q (site.after ts) (rs ++ regionsOf site ts)

namespace Carries

theorem trans (h : Carries P Q c d) (h' : Carries Q R d e) : Carries P R c e where
  fault he := h.fault (h'.fault he)
  carries f fs site rs he hs hP := by
    obtain ⟨ts, hts, hQ⟩ := h.carries (h'.fault he) hs hP
    obtain ⟨us, hus, hR⟩ := h'.carries he hts hQ
    rw [List.append_assoc] at hus
    rw [List.append_assoc, ← regionsOf_append, ← Site.after_append] at hR
    exact ⟨ts ++ us, hus, hR⟩

theorem mono (h : Carries P Q c d) (hP : ∀ site rs, P' site rs → P site rs)
    (hQ : ∀ site rs, Q site rs → Q' site rs) : Carries P' Q' c d where
  fault := h.fault
  carries f fs site rs hd hs hP' := by
    obtain ⟨ts, hts, hq⟩ := h.carries hd hs (hP _ _ hP')
    exact ⟨ts, hts, hQ _ _ hq⟩

/-- What is known in front of a stretch may be used for it. -/
theorem given (hfault : d.fault = none → c.fault = none)
    (h : c.fault = none → ∀ site rs, P site rs → Carries P Q c d) : Carries P Q c d where
  fault := hfault
  carries _ _ _ _ hd hs hP := (h (hfault hd) _ _ hP).carries hd hs hP

/-- Behind a stretch nothing has failed. -/
theorem ends (h : Carries P Q c d) (hQ : d.fault = none → ∀ site rs, Q site rs → Q' site rs) :
    Carries P Q' c d where
  fault := h.fault
  carries _ _ _ _ hd hs hP := by
    obtain ⟨ts, hts, hq⟩ := h.carries hd hs hP
    exact ⟨ts, hts, hQ hd _ _ hq⟩

/-- Nothing is added. -/
theorem still (hshows : ∀ fs : List (List Tree), Shows c fs → Shows d fs)
    (hfault : d.fault = none → c.fault = none) (hPQ : ∀ site rs, P site rs → Q site rs) :
    Carries P Q c d where
  fault := hfault
  carries f fs site rs _ hs hP := by
    refine ⟨[], by rw [List.append_nil]; exact hshows _ hs, ?_⟩
    rw [Site.after_nil, regionsOf, List.append_nil]
    exact hPQ _ _ hP

/-- One tree is added. -/
theorem one {t : Tree}
    (hshows : ∀ ⦃f : List Tree⦄ ⦃fs : List (List Tree)⦄, Shows c (f :: fs) →
      Shows d ((f ++ [t]) :: fs))
    (hfault : d.fault = none → c.fault = none)
    (hPQ : ∀ site rs, P site rs → Q (site.behind t) (rs ++ t.regions site)) : Carries P Q c d where
  fault := hfault
  carries f fs site rs _ hs hP := by
    refine ⟨[t], hshows hs, ?_⟩
    rw [regionsOf_singleton]
    exact hPQ _ _ hP

theorem fail (c : Cursor σ) (fault : Fault) : Carries P Q c (c.fail fault) := by
  have hfault : (c.fail fault).fault ≠ none := by cases h : c.fault <;> simp [Cursor.fail, h]
  exact ⟨fun h => absurd h hfault, fun _ _ _ _ h => absurd h hfault⟩

/-- A stretch does not leave sites that no tree leads out of. -/
theorem within {K : Site → Prop} (hK : ∀ site t, K site → K (site.behind t)) (h : Carries P Q c d) :
    Carries (fun site rs => K site ∧ P site rs) (fun site rs => K site ∧ Q site rs) c d where
  fault := h.fault
  carries f fs site rs hd hs hP := by
    have hafter {site : Site} (ts : List Tree) (hsite : K site) : K (site.after ts) := by
      induction ts generalizing site with
      | nil => exact hsite
      | cons t ts ih => exact ih (hK site t hsite)
    obtain ⟨ts, hts, hq⟩ := h.carries hd hs hP.2
    exact ⟨ts, hts, hafter ts hP.1, hq⟩

/-- Everything accepted becomes a node, if there is anything. -/
theorem flush (hkind : kind.holdsTokens = true)
    (hnone : c.pending = [] → ∀ site rs, P site rs → Q site rs)
    (hsome : c.pending ≠ [] → ∀ site rs, P site rs →
      Q (site.behind (TokenNode.tree ⟨kind, c.pending.reverse⟩))
        (rs ++ [⟨⟨kind, c.pending.reverse⟩, site⟩])) :
    Carries P Q c (c.flush kind) := by
  by_cases hp : c.pending = []
  · rw [flush_of_pending hp]
    exact still (fun _ hs => hs) id (hnone hp)
  · refine one (t := TokenNode.tree ⟨kind, c.pending.reverse⟩) (fun f fs hs => ?_)
      (fault_flush c kind).symm.trans fun site rs hP => ?_
    · have hflush := hs.flush kind
      rwa [flushTrees, if_neg hp] at hflush
    · rw [regions_tree hkind]
      exact hsome hp site rs hP

end Carries

theorem fault_of_complete {m : Marker} (h : (c.complete m kind).fault = none) :
    c.fault = none := by
  unfold complete at h
  dsimp only at h
  split at h
  · exact (fault_flush c .literal).symm.trans h
  · rw [Cursor.fail, fault_flush] at h
    cases hfault : c.fault with
    | none => rfl
    | some fault => simp [hfault] at h

/-- A stretch inside a node of its own, and what is kept of the site outside meanwhile. -/
theorem Carries.node {O : Site → Prop} (h : Carries P Q c.start.2 d)
    (hkind : kind.holdsTokens = false)
    (hopen : Carries P' (fun site rs => O site ∧ P (.inside kind) rs) c (c.flush .literal))
    (hclose : Carries Q (fun _ rs => ∀ site, O site → Q' site rs) d (d.flush .literal)) :
    Carries P' Q' c (d.complete c.start.1 kind) where
  fault hfault := (fault_flush c .literal).symm.trans (h.fault (fault_of_complete hfault))
  carries f fs site rs hfault hs hP := by
    have hd := fault_of_complete hfault
    obtain ⟨ts, hts, houtside, hP⟩ := hopen.carries (h.fault hd) hs hP
    obtain ⟨hstart, hm⟩ := hts.start
    have hsame : (c.flush .literal).start = c.start := by
      rw [start_of_pending (pending_flush c _)]
      rfl
    rw [hsame, pending_flush, flushTrees_nil, List.append_nil] at hstart hm
    obtain ⟨us, hus, hQ⟩ := h.carries hd hstart hP
    obtain ⟨vs, hvs, hQ⟩ := hclose.carries ((fault_flush d _).trans hd) hus hQ
    have hnode := hvs.complete hm kind
    have hagain : (d.flush .literal).complete c.start.1 kind = d.complete c.start.1 kind := by
      rw [complete, complete, flush_of_pending (pending_flush d _)]
    rw [hagain, pending_flush, flushTrees_nil, List.append_nil, List.nil_append,
      List.append_assoc] at hnode
    refine ⟨_, hnode, ?_⟩
    have hbehind := hQ _ houtside
    rw [List.append_assoc, List.append_assoc, ← regionsOf_append] at hbehind
    rw [Site.after_append, regionsOf_append, regionsOf_singleton, regions_node hkind]
    have hne : kind ≠ .literal := by
      intro hliteral
      rw [hliteral] at hkind
      cases hkind
    have hsite : (site.after ts).after [.node kind (us ++ vs)] = site.after ts :=
      Site.behind_node hne _
    rw [hsite]
    exact hbehind

/-! ## Requests -/

/-- The tokens that are no leaves yet, in the order of the source. -/
def coming (c : Cursor σ) : List Token := c.unflushed ++ c.ahead

theorem tokens_eq_coming (c : Cursor σ) : c.tokens = c.flushed.reverse ++ c.coming := by
  simp [tokens, coming, unflushed]

theorem exists_first_pending (hp : c.pending ≠ []) :
    ∃ t, t ∈ c.pending.reverse.head? ∧ t ∈ c.coming.head? := by
  obtain ⟨t, rest, ht⟩ := List.exists_cons_of_ne_nil (List.reverse_ne_nil_iff.mpr hp)
  exact ⟨t, by simp [ht], by simp [coming, unflushed, ht]⟩

/-- The request of the last code is open: nothing stands behind the code, or the request is left
over. -/
inductive Due (c : Cursor σ) : List Region → Prop
  | direct {front : List Region} {code : Region} : code.kind = .codeBlock →
      (code.site = .content → ∀ t ∈ c.coming.head?, t.kind.endsScan = true) →
      Due c (front ++ [code])
  | late {rs : List Region} : Late rs → Due c rs

theorem Due.allows (h : Due c rs) : Allows rs := by
  cases h with
  | direct hcode => exact .direct (.inl hcode)
  | late hlate => exact .late hlate

/-- With a node behind it, a request is left over. -/
theorem Due.concat (h : Due c rs) (hr : r.Passive) (hsite : r.site ≠ .value)
    (hfirst : (∀ t ∈ c.coming.head?, t.kind.endsScan = true) →
      ∃ t ∈ r.tokens.head?, t.kind.endsScan = true) : Late (rs ++ [r]) := by
  cases h with
  | late hlate => exact hlate.concat hr
  | @direct front code hcode hcontent =>
    have hover : code.LeavesOver r := by
      unfold LeavesOver
      split
      · trivial
      · exact hsite
      · next hsite => exact hfirst (hcontent hsite)
    rw [List.append_assoc, List.singleton_append]
    refine .intro hcode hover fun u hu => ?_
    rwa [List.mem_singleton.mp hu]

/-- What is known between two scans. -/
structure Stands (c : Cursor σ) (site : Site) (rs : List Region) : Prop where
  site_ne : site ≠ .value
  held : c.held = []
  answered : Answered rs
  due : c.context.ephemeralLineEnding = true → Due c rs

/-- A stretch that keeps this. -/
def Answers (c d : Cursor σ) : Prop := Carries (Stands c) (Stands d) c d

/-! ## Accepting tokens -/

/-- Tokens are accepted, or one is split. -/
structure Shifts (c d : Cursor σ) : Prop where
  moves : Moves c d
  fault : d.fault = none → c.fault = none
  held : c.held = [] → d.held = []
  first : d.coming.head?.map Token.kind = c.coming.head?.map Token.kind

namespace Shifts

theorem of_tokens (hmoves : Moves c d) (htokens : d.tokens = c.tokens)
    (hfault : d.fault = none → c.fault = none) (hheld : c.held = [] → d.held = []) : Shifts c d := by
  refine ⟨hmoves, hfault, hheld, ?_⟩
  rw [tokens_eq_coming, tokens_eq_coming, hmoves.flushed] at htokens
  rw [List.append_cancel_left htokens]

theorem refl (c : Cursor σ) : Shifts c c := ⟨.refl c, id, id, rfl⟩

theorem trans (h : Shifts c d) (h' : Shifts d e) : Shifts c e :=
  ⟨h.moves.trans h'.moves, fun he => h.fault (h'.fault he), fun hc => h'.held (h.held hc),
    h'.first.trans h.first⟩

theorem fault_bump (c : Cursor σ) : c.bump.fault = c.fault := by
  unfold Cursor.bump
  split <;> rfl

theorem bump (c : Cursor σ) : Shifts c c.bump :=
  of_tokens (.bump c) (tokens_bump c) (fault_bump c).symm.trans held_bump_of_held

theorem bumpN (c : Cursor σ) (n : Nat) : Shifts c (c.bumpN n) := by
  induction n generalizing c with
  | zero => exact refl c
  | succ n ih => exact (bump c).trans (ih c.bump)

theorem bumpWhile (c : Cursor σ) (test : Token → Bool) : Shifts c (c.bumpWhile test) := bumpN c _

theorem eat (c : Cursor σ) (kind : Kind) : Shifts c (c.eat kind).2 := by
  unfold Cursor.eat
  split
  · exact bump c
  · exact refl c

theorem eatName (c : Cursor σ) : Shifts c c.eatName := bumpWhile c _

theorem acceptUntil (c : Cursor σ) (kinds : List Kind) : Shifts c (c.acceptUntil kinds) :=
  bumpWhile c _

theorem recoverTextTag (c : Cursor σ) : Shifts c c.recoverTextTag :=
  (acceptUntil c _).trans (eat _ _)

theorem fail (c : Cursor σ) (fault : Fault) : Shifts c (c.fail fault) := by
  refine of_tokens (.fail c fault) rfl (fun h => ?_) id
  cases hfault : c.fault with
  | none => rfl
  | some old => simp [Cursor.fail, hfault] at h

/-- The front of a token is of its kind. -/
theorem splitAfter (c : Cursor σ) (count : Nat) : Shifts c (c.splitAfter count) := by
  refine ⟨.splitAfter c count, ?_, ?_, ?_⟩
  · unfold Cursor.splitAfter
    split
    · exact id
    · split <;> exact id
  · rw [held_splitAfter]
    exact id
  · unfold Cursor.splitAfter
    split
    · rfl
    · next t rest ha =>
      split
      · cases hread : c.unflushed with
        | nil => simp_all [coming, unflushed]
        | cons u us => simp_all [coming, unflushed]
      · rfl

end Shifts

theorem Due.shifts (h : Due c rs)
    (hfirst : d.coming.head?.map Token.kind = c.coming.head?.map Token.kind) : Due d rs := by
  cases h with
  | late hlate => exact .late hlate
  | direct hcode hcontent =>
    refine .direct hcode fun hsite t ht => ?_
    rw [ht, Option.map_some] at hfirst
    obtain ⟨u, hu, hkind⟩ := Option.map_eq_some_iff.mp hfirst.symm
    rw [← hkind]
    exact hcontent hsite u hu

namespace Stands

theorem shifts (h : Stands c site rs) (hshifts : Shifts c d) : Stands d site rs where
  site_ne := h.site_ne
  held := hshifts.held h.held
  answered := h.answered
  due hasked := by
    rw [hshifts.moves.context] at hasked
    exact (h.due hasked).shifts hshifts.first

/-- The same tokens are coming, perhaps at another site. -/
theorem same (h : Stands c site rs) (hsite : site' ≠ .value) (hheld : d.held = c.held)
    (hcoming : d.coming = c.coming)
    (hasks : d.context.ephemeralLineEnding = c.context.ephemeralLineEnding) : Stands d site' rs where
  site_ne := hsite
  held := hheld.trans h.held
  answered := h.answered
  due hasked := by
    rw [hasks] at hasked
    exact (h.due hasked).shifts (by rw [hcoming])

/-- Behind a node that is complete. -/
theorem complete (h : Stands (c.flush .literal) site rs) (hsite : site' ≠ .value) (m : Marker)
    (kind : Kind) : Stands (c.complete m kind) site' rs := by
  refine h.same hsite ?_ ?_ ?_
  · rw [held_complete, held_flush]
  · simp [coming, unflushed]
  · rw [context_complete, context_flush]

/-- A node is added that neither asks nor answers. -/
theorem concat (h : Stands c site rs) (hr : r.Passive) (hsite : r.site = site)
    (hfirst : (∀ t ∈ c.coming.head?, t.kind.endsScan = true) →
      ∃ t ∈ r.tokens.head?, t.kind.endsScan = true)
    (hheld : d.held = c.held) (hcontext : d.context = c.context) (t : Tree) :
    Stands d (site.behind t) (rs ++ [r]) where
  site_ne := Site.behind_ne_value h.site_ne t
  held := hheld.trans h.held
  answered := h.answered.rendered hr.2
  due hasked := by
    rw [hcontext] at hasked
    refine .late ((h.due hasked).concat hr ?_ hfirst)
    rw [hsite]
    exact h.site_ne

/-- Accepted tokens become a node. -/
theorem flush (h : Stands c site rs) (hp : c.pending ≠ [])
    (hpassive : kind ≠ .codeBlock ∧ kind ≠ .ephemeral) :
    Stands (c.flush kind) (site.behind (TokenNode.tree ⟨kind, c.pending.reverse⟩))
      (rs ++ [⟨⟨kind, c.pending.reverse⟩, site⟩]) := by
  have hr : Passive ⟨⟨kind, c.pending.reverse⟩, site⟩ := hpassive
  refine h.concat hr rfl (fun hfirst => ?_) (held_flush c kind) (context_flush c kind) _
  obtain ⟨t, ht, hcoming⟩ := exists_first_pending hp
  exact ⟨t, ht, hfirst t hcoming⟩

end Stands

namespace Answers

theorem refl (c : Cursor σ) : Answers c c := Carries.still (fun _ hs => hs) id fun _ _ h => h

theorem trans (h : Answers c d) (h' : Answers d e) : Answers c e := Carries.trans h h'

theorem shifts (h : Answers c d) (hshifts : Shifts d e) : Answers c e :=
  h.trans (.still (fun _ hs => hshifts.moves.shows hs) hshifts.fault fun _ _ hd =>
    hd.shifts hshifts)

theorem report (h : Answers c d) (problem : Problem) (range : Range) :
    Answers c (d.report problem range) := by
  refine h.trans (.still (fun fs hs => ?_) ?_ fun site rs hd => ?_)
  · refine hs.same ?_ ?_ (tokens_report d _ _) <;> unfold Cursor.report <;> dsimp only <;>
      split <;> rfl
  · unfold Cursor.report
    dsimp only
    split
    · exact (Shifts.fail d _).fault
    · exact id
  · refine hd.same hd.site_ne ?_ ?_ ?_ <;> unfold Cursor.report <;> dsimp only <;> split <;> rfl

/-- Accepted tokens become a node. -/
theorem flush (h : Answers c d) (hkind : kind.holdsTokens = true)
    (hpassive : kind ≠ .codeBlock ∧ kind ≠ .ephemeral) : Answers c (d.flush kind) := by
  refine h.trans (Carries.flush hkind (fun hp site rs hd => ?_)
    fun hp site rs hd => hd.flush hp hpassive)
  rwa [flush_of_pending hp]

theorem flush_literal (h : Answers c d) : Answers c (d.flush .literal) :=
  h.flush rfl (by decide)

/-- An empty token stands in for a `>`. -/
theorem missing (h : Answers c d) : Answers c (d.missing .closeAngle) := by
  have hagain : (d.flush .literal).missing .closeAngle = d.missing .closeAngle := by
    rw [Cursor.missing, Cursor.missing, flush_of_pending (pending_flush d _)]
  have hmissing := Emits.missing (d.flush .literal) .closeAngle
  rw [pending_flush, flushTrees_nil, List.nil_append, hagain] at hmissing
  refine h.flush_literal.trans (.one (fun f fs hs => hmissing.shows hs) id fun site rs hd => ?_)
  have hpassive : Passive ⟨⟨.closeAngle, [⟨.closeAngle, []⟩]⟩, site⟩ := by simp [Passive]
  exact hd.concat hpassive rfl (fun _ => ⟨_, rfl, rfl⟩) hmissing.held hmissing.context _

/-- A stretch inside a node of its own, from what is known at its beginning. -/
theorem node (h : Carries P (Stands d) c.start.2 d) (hkind : kind.holdsTokens = false)
    (hinside : Site.inside kind ≠ .value)
    (hP : ∀ rs, Stands c.start.2 (.inside kind) rs → P (.inside kind) rs) :
    Answers c (d.complete c.start.1 kind) := by
  have hflush (e : Cursor σ) : Answers e (e.flush .literal) := (refl e).flush_literal
  have hopen : Carries (Stands c) (fun site rs => site ≠ .value ∧ P (.inside kind) rs) c
      (c.flush .literal) :=
    (hflush c).mono (fun _ _ hc => hc) fun site rs hc =>
      ⟨hc.site_ne, hP rs (hc.same hinside rfl rfl rfl)⟩
  refine Carries.node h hkind hopen ((hflush d).mono (fun _ _ hd => hd) ?_)
  exact fun _ rs hd site hsite => hd.complete hsite c.start.1 kind

end Answers

end Cursor

end TemplateMarkup
