import TemplateMarkup.Markup.Nested
import TemplateMarkup.Proofs.Lexing

/-! # Nesting sequences in a text

The parser looks for sequences in one token after the other. Since a sequence of
ordinary characters lies within a run of them, a text that ends with its run can be
scanned on its own, and the scans of two texts are one scan of both together. -/

namespace TemplateMarkup

/-! ## Sequences -/

/-- Characters that have no meaning of their own. -/
def Text.Ordinary (a : List Char) : Prop := ∀ c ∈ a, Form.ofChar c = .run

instance (a : List Char) : Decidable (Text.Ordinary a) := List.decidableBAll _ a

section Sequences

variable {caseSensitive : Bool} {opener closer sequence text more : List Char} {before : Nat}

/-- A sequence is at the beginning of a text that goes on with anything behind it. -/
theorem sequenceAt_iff : sequenceAt caseSensitive sequence text = true ↔ sequence ≠ [] ∧
    ∃ head tail, text = head ++ tail ∧ head.length = sequence.length ∧
      if caseSensitive then head = sequence else Text.foldCase head = Text.foldCase sequence := by
  constructor
  · intro h
    simp only [sequenceAt, Bool.and_eq_true, Bool.not_eq_true', List.isEmpty_eq_false_iff] at h
    obtain ⟨hne, hsame⟩ := h
    refine ⟨hne, text.take sequence.length, text.drop sequence.length,
      (List.take_append_drop ..).symm, ?_⟩
    cases caseSensitive with
    | true =>
      have hhead : text.take sequence.length = sequence := by simpa using hsame
      exact ⟨congrArg List.length hhead, hhead⟩
    | false =>
      have hhead := Text.sameIgnoringCase_iff.mp (by simpa using hsame)
      have hlen := congrArg List.length hhead
      simp only [Text.foldCase, List.length_map] at hlen
      exact ⟨hlen, hhead⟩
  · rintro ⟨hne, head, tail, rfl, hlen, hhead⟩
    have htake : (head ++ tail).take sequence.length = head := by rw [← hlen, List.take_left]
    rw [sequenceAt, htake]
    cases caseSensitive with
    | true => simpa [hne] using hhead
    | false => simpa [hne] using Text.sameIgnoringCase_iff.mpr hhead

theorem sequenceAt_append (h : sequenceAt caseSensitive sequence text = true) (more : List Char) :
    sequenceAt caseSensitive sequence (text ++ more) = true := by
  obtain ⟨hne, head, tail, rfl, hlen, hhead⟩ := sequenceAt_iff.mp h
  exact sequenceAt_iff.mpr ⟨hne, head, tail ++ more, List.append_assoc .., hlen, hhead⟩

theorem length_of_sequenceAt (h : sequenceAt caseSensitive sequence text = true) :
    0 < sequence.length ∧ sequence.length ≤ text.length := by
  obtain ⟨hne, head, tail, rfl, hlen, -⟩ := sequenceAt_iff.mp h
  refine ⟨List.length_pos_iff.mpr hne, ?_⟩
  rw [List.length_append]
  omega

/-- What ordinary characters are compared with is ordinary, whatever its case. -/
theorem ordinary_of_sequenceAt (hs : Text.Ordinary sequence)
    (h : sequenceAt caseSensitive sequence text = true) :
    ∃ head tail, text = head ++ tail ∧ head.length = sequence.length ∧ head ≠ [] ∧
      Text.Ordinary head := by
  obtain ⟨hne, head, tail, rfl, hlen, hhead⟩ := sequenceAt_iff.mp h
  refine ⟨head, tail, rfl, hlen, ?_, fun c hc => ?_⟩
  · rintro rfl
    exact hne (List.length_eq_zero_iff.mp hlen.symm)
  · have hfold : Text.foldCase head = Text.foldCase sequence := by
      cases caseSensitive with
      | true => exact congrArg Text.foldCase hhead
      | false => exact hhead
    have hmem : c.toLower ∈ Text.foldCase sequence := hfold ▸ List.mem_map_of_mem hc
    obtain ⟨d, hd, hlower⟩ := List.mem_map.mp hmem
    rw [← (Form.form_toLower .run c).1, ← hlower, (Form.form_toLower .run d).1, hs d hd]

theorem sequenceAt_other {c : Char} (hs : Text.Ordinary sequence) (hc : Form.ofChar c ≠ .run) :
    sequenceAt caseSensitive sequence (c :: text) = false := by
  rw [← Bool.not_eq_true]
  intro h
  obtain ⟨head, tail, heq, -, hne, hhead⟩ := ordinary_of_sequenceAt hs h
  cases head with
  | nil => exact hne rfl
  | cons d head =>
    obtain ⟨rfl, -⟩ := List.cons.inj heq
    exact hc (hhead c (List.mem_cons_self ..))

/-- A sequence of ordinary characters does not reach beyond them. -/
theorem sequenceAt_bounded (hs : Text.Ordinary sequence)
    (hmore : ∀ c ∈ more.head?, Form.ofChar c ≠ .run) :
    sequenceAt caseSensitive sequence (text ++ more) = sequenceAt caseSensitive sequence text := by
  cases h : sequenceAt caseSensitive sequence text with
  | true => exact sequenceAt_append h more
  | false =>
    rw [← Bool.not_eq_true] at h ⊢
    intro hboth
    obtain ⟨hne, head, tail, heq, hlen, hsame⟩ := sequenceAt_iff.mp hboth
    obtain ⟨head', tail', heq', hlen', -, hordinary⟩ := ordinary_of_sequenceAt hs hboth
    obtain ⟨rfl, rfl⟩ := List.append_inj (heq.symm.trans heq') (hlen.trans hlen'.symm)
    rcases List.append_eq_append_iff.mp heq with ⟨rest, rfl, hrest⟩ | ⟨rest, rfl, -⟩
    · cases rest with
      | nil =>
        rw [List.append_nil] at hlen hsame
        exact h (sequenceAt_iff.mpr ⟨hne, text, [], (List.append_nil _).symm, hlen, hsame⟩)
      | cons c rest =>
        refine hmore c (by rw [hrest]; rfl) (hordinary c ?_)
        simp
    · exact h (sequenceAt_iff.mpr ⟨hne, head, rest, rfl, hlen, hsame⟩)

/-- The first of two sequences is at its place. -/
theorem sequenceAt_firstBound (caseSensitive : Bool) (opener closer text : List Char) :
    match firstBound caseSensitive opener closer text with
    | .opener before => sequenceAt caseSensitive opener (text.drop before) = true
    | .closer before => sequenceAt caseSensitive closer (text.drop before) = true
    | .none => True := by
  induction text with
  | nil => trivial
  | cons c text ih =>
    unfold firstBound
    by_cases ho : sequenceAt caseSensitive opener (c :: text) = true
    · rw [if_pos ho]
      exact ho
    · rw [if_neg ho]
      by_cases hc : sequenceAt caseSensitive closer (c :: text) = true
      · rw [if_pos hc]
        exact hc
      · rw [if_neg hc]
        generalize firstBound caseSensitive opener closer text = bound at ih ⊢
        cases bound <;> exact ih

end Sequences

/-! ## The region of a text -/

namespace Nesting

/-- What a region claims of a text in which `depth` sequences are open and the first `skip`
characters belong to a sequence that was found before: everything up to the closing sequence that
leaves none open. Where both sequences begin, it is the opening one. -/
def claim (n : Nesting) : Nat → Nat → List Char → List Char
  | _, _, [] => []
  | depth, skip + 1, c :: rest => c :: n.claim depth skip rest
  | depth, 0, c :: rest =>
    if sequenceAt n.caseSensitive n.opener.toList (c :: rest) then
      c :: n.claim (depth + 1) (n.opener.toList.length - 1) rest
    else if sequenceAt n.caseSensitive n.closer.toList (c :: rest) then
      if depth = 1 then [] else c :: n.claim (depth - 1) (n.closer.toList.length - 1) rest
    else c :: n.claim depth 0 rest

/-- Sequences of ordinary characters. -/
structure Plain (n : Nesting) : Prop where
  opener : Text.Ordinary n.opener.toList
  closer : Text.Ordinary n.closer.toList

variable {n : Nesting} {depth : Nat} {a text more : List Char}

theorem claim_skip (n : Nesting) (depth : Nat) (a more : List Char) :
    n.claim depth a.length (a ++ more) = a ++ n.claim depth 0 more := by
  induction a with
  | nil => rfl
  | cons c a ih =>
    rw [List.length_cons, List.cons_append, claim, ih]
    rfl

/-- A sequence is claimed with all its characters. -/
theorem claim_sequence {c : Char} {count : Nat} (hpos : 0 < count)
    (hle : count ≤ (c :: text).length) : c :: n.claim depth (count - 1) (text ++ more) =
      (c :: text).take count ++ n.claim depth 0 ((c :: text).drop count ++ more) := by
  obtain ⟨count, rfl⟩ := Nat.exists_eq_succ_of_ne_zero (Nat.ne_of_gt hpos)
  have hlen : (text.take count).length = count := by
    rw [List.length_take]
    rw [List.length_cons] at hle
    omega
  have hskip := n.claim_skip depth (text.take count) (text.drop count ++ more)
  rw [hlen, ← List.append_assoc, List.take_append_drop] at hskip
  rw [Nat.succ_eq_add_one, Nat.add_sub_cancel, hskip]
  rfl

/-- Other characters are claimed one by one. -/
theorem claim_other (hn : n.Plain) (ha : ∀ c ∈ a, Form.ofChar c ≠ .run) (depth : Nat)
    (more : List Char) : n.claim depth 0 (a ++ more) = a ++ n.claim depth 0 more := by
  induction a with
  | nil => rfl
  | cons c a ih =>
    obtain ⟨hc, ha⟩ := List.forall_mem_cons.mp ha
    rw [List.cons_append, claim, sequenceAt_other hn.opener hc, sequenceAt_other hn.closer hc]
    exact congrArg (c :: ·) (ih ha)

/-- From one text with `depth` sequences open the scan comes to the other with `after` open, unless
it has ended there. -/
def Scans (n : Nesting) (depth after : Nat) (text rest : List Char) : Prop :=
  ∃ used, text = used ++ rest ∧
    n.claim depth 0 text = used ++ if after = 0 then [] else n.claim after 0 rest

namespace Scans

variable {after next : Nat} {rest : List Char} {c : Char}

theorem refl (hdepth : depth ≠ 0) : n.Scans depth depth text text :=
  ⟨[], rfl, by rw [if_neg hdepth, List.nil_append]⟩

theorem trans (h : n.Scans depth after text rest) (hafter : after ≠ 0)
    (h' : n.Scans after next rest more) : n.Scans depth next text more := by
  obtain ⟨used, rfl, hclaim⟩ := h
  obtain ⟨used', rfl, hclaim'⟩ := h'
  refine ⟨used ++ used', (List.append_assoc ..).symm, ?_⟩
  rw [hclaim, if_neg hafter, hclaim', List.append_assoc]

/-- Behind the last character no sequence is left that could end the scan. -/
theorem all (h : n.Scans depth after text []) : n.Scans depth 0 text [] := by
  obtain ⟨used, htext, hclaim⟩ := h
  refine ⟨used, htext, ?_⟩
  rw [hclaim, claim, ite_self, if_pos rfl]

theorem other (hn : n.Plain) (ha : ∀ c ∈ a, Form.ofChar c ≠ .run) (hdepth : depth ≠ 0) :
    n.Scans depth depth (a ++ more) more :=
  ⟨a, rfl, by rw [if_neg hdepth, claim_other hn ha]⟩

theorem cons (h : n.Scans depth after text rest)
    (hc : n.claim depth 0 (c :: text) = c :: n.claim depth 0 text) :
    n.Scans depth after (c :: text) rest := by
  obtain ⟨used, rfl, hclaim⟩ := h
  exact ⟨c :: used, rfl, by rw [hc, hclaim]; rfl⟩

theorem sequence {count : Nat} (hpos : 0 < count) (hle : count ≤ (c :: text).length)
    (hafter : after ≠ 0)
    (hc : n.claim depth 0 (c :: (text ++ more)) = c :: n.claim after (count - 1) (text ++ more)) :
    n.Scans depth after (c :: (text ++ more)) ((c :: text).drop count ++ more) := by
  refine ⟨(c :: text).take count, ?_, ?_⟩
  · rw [← List.append_assoc, List.take_append_drop, List.cons_append]
  · rw [hc, if_neg hafter, claim_sequence hpos hle]

end Scans

/-- No sequence begins in other characters. -/
theorem firstBound_other (hn : n.Plain) (ha : ∀ c ∈ a, Form.ofChar c ≠ .run) :
    firstBound n.caseSensitive n.opener.toList n.closer.toList a = .none := by
  induction a with
  | nil => rfl
  | cons c a ih =>
    obtain ⟨hc, ha⟩ := List.forall_mem_cons.mp ha
    rw [firstBound, sequenceAt_other hn.opener hc, sequenceAt_other hn.closer hc, ih ha]
    rfl

/-- How far a text is scanned whose first sequence stands there: behind that sequence, before one
that closes the last, and to the end if there is none. -/
def ScansTo (n : Nesting) (depth : Nat) (text more : List Char) : Bound → Prop
  | .opener before => n.Scans depth (depth + 1) (text ++ more)
      (text.drop (before + n.opener.toList.length) ++ more)
  | .closer before => if depth = 1 then n.Scans depth 0 (text ++ more) (text.drop before ++ more)
      else n.Scans depth (depth - 1) (text ++ more)
        (text.drop (before + n.closer.toList.length) ++ more)
  | .none => n.Scans depth depth (text ++ more) more

/-- A character in which no sequence begins is passed. -/
theorem ScansTo.later {bound : Bound} {c : Char} (h : n.ScansTo depth text more bound)
    (hc : n.claim depth 0 (c :: (text ++ more)) = c :: n.claim depth 0 (text ++ more)) :
    n.ScansTo depth (c :: text) more bound.later := by
  have hdrop (before count : Nat) :
      (c :: text).drop (before + 1 + count) = text.drop (before + count) := by
    rw [Nat.add_right_comm, List.drop_succ_cons]
  cases bound with
  | opener before =>
    dsimp only [ScansTo, Bound.later] at h ⊢
    rw [hdrop]
    exact h.cons hc
  | closer before =>
    dsimp only [ScansTo, Bound.later] at h ⊢
    rw [hdrop, List.drop_succ_cons]
    split at h
    · next hlast =>
      rw [if_pos hlast]
      exact h.cons hc
    · next hlast =>
      rw [if_neg hlast]
      exact h.cons hc
  | none => exact h.cons hc

/-- A text is scanned up to the first sequence in it, if it ends with its ordinary characters. -/
theorem scans_firstBound (hn : n.Plain) (hmore : ∀ c ∈ more.head?, Form.ofChar c ≠ .run)
    (hdepth : depth ≠ 0) : n.ScansTo depth text more
      (firstBound n.caseSensitive n.opener.toList n.closer.toList text) := by
  induction text with
  | nil => exact .refl hdepth
  | cons c text ih =>
    -- what follows the text does not help a sequence of ordinary characters
    have hbounded {sequence : List Char} (hs : Text.Ordinary sequence) :
        sequenceAt n.caseSensitive sequence (c :: (text ++ more)) =
          sequenceAt n.caseSensitive sequence (c :: text) := by
      rw [← List.cons_append]
      exact sequenceAt_bounded hs hmore
    have hopener := hbounded hn.opener
    have hcloser := hbounded hn.closer
    unfold firstBound
    by_cases ho : sequenceAt n.caseSensitive n.opener.toList (c :: text) = true
    · rw [if_pos ho]
      obtain ⟨hpos, hle⟩ := length_of_sequenceAt ho
      dsimp only [ScansTo]
      rw [Nat.zero_add]
      exact .sequence hpos hle (Nat.succ_ne_zero _) (by rw [claim, hopener, if_pos ho])
    · rw [if_neg ho]
      by_cases hc : sequenceAt n.caseSensitive n.closer.toList (c :: text) = true
      · rw [if_pos hc]
        obtain ⟨hpos, hle⟩ := length_of_sequenceAt hc
        dsimp only [ScansTo]
        rw [Nat.zero_add, List.cons_append]
        split
        · next hlast =>
          refine ⟨[], rfl, ?_⟩
          rw [claim, hopener, if_neg ho, hcloser, if_pos hc, if_pos hlast]
          rfl
        · next hlast =>
          exact .sequence hpos hle (by omega)
            (by rw [claim, hopener, if_neg ho, hcloser, if_pos hc, if_neg hlast])
      · rw [if_neg hc]
        exact ih.later (by rw [claim, hopener, if_neg ho, hcloser, if_neg hc])

end Nesting

end TemplateMarkup
