import Mathlib.Data.List.DropRight
import TemplateMarkup.Proofs.Claims
import TemplateMarkup.Proofs.TokenTable

/-! # The extent of an implicit expression

What an implicit expression claims is given by a grammar of characters, although
the parser reads tokens and splits one where the expression ends inside it. The
tokens that are left are those of the text that is left, and so no call notices
that a token was split before it. -/

namespace TemplateMarkup

open Token

/-! ## Groups of brackets -/

namespace Brackets

variable {b : Brackets} {depth more count : Nat} {text rest body : List Char} {ch : Char}

/-- The text closes as many groups as it opens. -/
def Balanced (b : Brackets) (text : List Char) : Prop := text.count b.opening = text.count b.closing

/-- The shortest beginning of a text, not counting the empty one, in which the brackets balance. If
they balance in none, this is all of the text. -/
inductive Group (b : Brackets) (text : List Char) : List Char → Prop
  | closed {body : List Char} : body ≠ [] → body <+: text → b.Balanced body →
      (∀ other, other ≠ [] → other <+: text → b.Balanced other → body.length ≤ other.length) →
      Group b text body
  | unclosed : (∀ body, body ≠ [] → body <+: text → ¬ b.Balanced body) → Group b text text

theorem Group.ne_nil {group : List Char} (h : Group b text group) (htext : text ≠ []) :
    group ≠ [] := by
  cases h with
  | closed hne => exact hne
  | unclosed => exact htext

/-- The text closes the outermost of `depth` groups that are open in front of it. -/
def Closed (b : Brackets) (depth : Nat) (text : List Char) : Prop :=
  text.count b.closing = text.count b.opening + depth

namespace Closing

/-- The part of the text that belongs to the group. -/
def part : Closing → List Char → List Char
  | after count, text => text.take count
  | unclosed _, text => text

/-- The same place, seen from one character before. -/
def next : Closing → Closing
  | after count => after (count + 1)
  | unclosed depth => unclosed depth

@[simp] theorem part_next (closing : Closing) : closing.next.part (ch :: text) =
    ch :: closing.part text := by
  cases closing <;> rfl

/-- This is the first place at which the outermost group is closed. -/
def First (b : Brackets) (depth : Nat) (text : List Char) : Closing → Prop
  | after count => count ≤ text.length ∧ b.Closed depth (text.take count) ∧
      ∀ n < count, ¬ b.Closed depth (text.take n)
  | unclosed _ => ∀ n, ¬ b.Closed depth (text.take n)

theorem First.cons {closing : Closing} (hdepth : 0 < depth)
    (hch : ∀ body, b.Closed depth (ch :: body) ↔ b.Closed more body)
    (h : closing.First b more text) : closing.next.First b depth (ch :: text) := by
  have hnil : ¬ b.Closed depth [] := by
    simp only [Closed, List.count_nil]
    omega
  cases closing with
  | after count =>
    obtain ⟨hle, hclosed, hfirst⟩ := h
    refine ⟨Nat.succ_le_succ hle, (hch _).mpr hclosed, fun n hn => ?_⟩
    cases n with
    | zero => exact hnil
    | succ n => exact fun hc => hfirst n (Nat.lt_of_succ_lt_succ hn) ((hch _).mp hc)
  | unclosed =>
    intro n
    cases n with
    | zero => exact hnil
    | succ n => exact fun hc => h n ((hch _).mp hc)

end Closing

theorem findClosing_cons (b : Brackets) (depth : Nat) (ch : Char) (text : List Char) :
    b.findClosing depth (ch :: text) =
      if ch = b.opening then (b.findClosing (depth + 1) text).next
      else if ch = b.closing then
        if depth ≤ 1 then .after 1 else (b.findClosing (depth - 1) text).next
      else (b.findClosing depth text).next := rfl

/-- With a group open, the search stops at the first place where it is closed. -/
theorem first_findClosing (hne : b.opening ≠ b.closing) (hdepth : 0 < depth) (text : List Char) :
    (b.findClosing depth text).First b depth text := by
  induction text generalizing depth with
  | nil =>
    intro n
    simp only [Closed, List.take_nil, List.count_nil]
    omega
  | cons ch text ih =>
    rw [findClosing_cons]
    split
    · next hopening =>
      refine Closing.First.cons hdepth (fun body => ?_) (ih (Nat.succ_pos depth))
      simp only [Closed, hopening, List.count_cons_self, List.count_cons_of_ne hne]
      omega
    · next hopening =>
      split
      · next hclosing =>
        subst hclosing
        split
        · refine ⟨by simp, ?_, fun n hn => ?_⟩
          · simp [Closed, hopening]
            omega
          · obtain rfl : n = 0 := by omega
            simp only [Closed, List.take_zero, List.count_nil]
            omega
        · refine Closing.First.cons hdepth (fun body => ?_) (ih (by omega))
          simp only [Closed, List.count_cons_self, List.count_cons_of_ne hopening]
          omega
      · next hclosing =>
        refine Closing.First.cons hdepth (fun body => ?_) (ih hdepth)
        rw [Closed, Closed, List.count_cons_of_ne hclosing, List.count_cons_of_ne hopening]

/-- The search finds the group that an opening bracket begins. -/
theorem group_findClosing (hne : b.opening ≠ b.closing) (rest : List Char) :
    Group b (b.opening :: rest)
      ((b.findClosing 0 (b.opening :: rest)).part (b.opening :: rest)) := by
  have hbalanced (body : List Char) : b.Balanced (b.opening :: body) ↔ b.Closed 1 body := by
    rw [Balanced, Closed, List.count_cons_self, List.count_cons_of_ne hne, eq_comm]
  have hfront {body : List Char} (hbody : body ≠ []) (h : body <+: b.opening :: rest) :
      body = b.opening :: rest.take (body.length - 1) := by
    obtain ⟨a, body, rfl⟩ := List.exists_cons_of_ne_nil hbody
    obtain ⟨rfl, hrest⟩ := List.cons_prefix_cons.mp h
    rw [List.length_cons, Nat.add_sub_cancel, ← List.prefix_iff_eq_take.mp hrest]
  have hfirst := first_findClosing hne Nat.one_pos rest
  rw [findClosing_cons, if_pos rfl, Closing.part_next, Nat.zero_add]
  cases hclosing : b.findClosing 1 rest with
  | after count =>
    rw [hclosing] at hfirst
    obtain ⟨hle, hclosed, hleast⟩ := hfirst
    refine .closed (List.cons_ne_nil _ _) (List.cons_prefix_cons.mpr ⟨rfl, List.take_prefix _ _⟩)
      ((hbalanced _).mpr hclosed) fun other hother hpre hbal => ?_
    rw [hfront hother hpre, hbalanced] at hbal
    have hlen := hleast (other.length - 1)
    have hpos := List.length_pos_iff.mpr hother
    simp only [Closing.part, List.length_cons, List.length_take_of_le hle]
    by_contra hlt
    exact hlen (by omega) hbal
  | unclosed =>
    rw [hclosing] at hfirst
    refine .unclosed fun body hbody hpre hbal => ?_
    rw [hfront hbody hpre, hbalanced] at hbal
    exact hfirst _ hbal

/-- The search goes on behind a part in which it did not end. -/
theorem part_findClosing_append (b : Brackets) (depth : Nat) (text rest : List Char) :
    (b.findClosing depth (text ++ rest)).part (text ++ rest) =
      match b.findClosing depth text with
      | .after count => text.take count
      | .unclosed depth => text ++ (b.findClosing depth rest).part rest := by
  induction text generalizing depth with
  | nil => rfl
  | cons ch text ih =>
    have hnext (depth : Nat) :
        (b.findClosing depth (text ++ rest)).next.part (ch :: (text ++ rest)) =
          match (b.findClosing depth text).next with
          | .after count => (ch :: text).take count
          | .unclosed depth => ch :: text ++ (b.findClosing depth rest).part rest := by
      rw [Closing.part_next, ih]
      cases b.findClosing depth text <;> rfl
    rw [List.cons_append, findClosing_cons, findClosing_cons]
    split
    · exact hnext _
    · split
      · split
        · rfl
        · exact hnext _
      · exact hnext _

theorem findClosing_count (h : b.findClosing depth text = .after count) :
    0 < count ∧ count ≤ text.length ∧ b.closing ∈ text := by
  induction text generalizing depth count with
  | nil => cases h
  | cons ch text ih =>
    have hnext {depth : Nat} (h : (b.findClosing depth text).next = .after count) :
        0 < count ∧ count ≤ (ch :: text).length ∧ b.closing ∈ ch :: text := by
      cases hclosing : b.findClosing depth text with
      | after n =>
        rw [hclosing] at h
        cases h
        obtain ⟨-, hle, hmem⟩ := ih hclosing
        exact ⟨Nat.succ_pos n, Nat.succ_le_succ hle, List.mem_cons_of_mem ch hmem⟩
      | unclosed =>
        rw [hclosing] at h
        cases h
    rw [findClosing_cons] at h
    split at h
    · exact hnext h
    · split at h
      · next hmem =>
        split at h
        · cases h
          exact ⟨Nat.one_pos, by simp, by simp [hmem]⟩
        · exact hnext h
      · exact hnext h

end Brackets

/-! ## The grammar -/

namespace Expression

open Brackets

/-- The longest beginning of a text that is a chain of names: the run of their characters and dots,
without the dots at its end. -/
def name (text : List Char) : List Char :=
  (text.takeWhile continuesName).rdropWhile (· == '.')

/-- Groups of arguments and indices, as long as one follows directly. -/
inductive Groups : List Char → List Char → Prop
  | nil {text : List Char} : text.head? ≠ some '(' → text.head? ≠ some '[' → Groups text []
  | cons {text group rest groups : List Char} {b : Brackets} : b = .round ∨ b = .square →
      text.head? = some b.opening → Group b text group → text = group ++ rest → Groups rest groups →
      Groups text (group ++ groups)

/-- The part of the text behind an `@` that belongs to the expression. -/
inductive Extent (text : List Char) : List Char → Prop
  | bracketed {group : List Char} {b : Brackets} : b = .round ∨ b = .curly →
      text.head? = some b.opening → Group b text group → Extent text group
  | named {rest groups : List Char} : text.head?.any startsName = true → text = name text ++ rest →
      Groups rest groups → Extent text (name text ++ groups)
  | nothing : text.head? ≠ some '(' → text.head? ≠ some '\x7b' →
      text.head?.any startsName = false → Extent text []

variable {text : List Char} {t : Token} {ts : List Token} {kind : Kind} {ch : Char}

theorem name_begins (text : List Char) : name text <+: text :=
  (List.rdropWhile_prefix _ _).trans (List.takeWhile_prefix continuesName)

theorem length_name (text : List Char) : (name text).length = nameLength text := by
  rw [name, List.rdropWhile, List.length_reverse, nameLength]

theorem take_nameLength (text : List Char) : text.take (nameLength text) = name text := by
  rw [← length_name]
  exact (List.prefix_iff_eq_take.mp (name_begins text)).symm

theorem nameLength_le (text : List Char) : nameLength text ≤ text.length := by
  rw [← length_name]
  exact (name_begins text).length_le

theorem nameLength_pos (h : text.head?.any startsName = true) : 0 < nameLength text := by
  cases text with
  | nil => cases h
  | cons ch rest =>
    have hstarts : startsName ch = true := h
    have hdot : startsName '.' = false := by decide +kernel
    have hcontinues : continuesName ch = true := by
      rw [startsName, Bool.or_eq_true] at hstarts
      rcases hstarts with hstarts | hstarts <;> simp [continuesName, hstarts]
    rw [nameLength, List.length_pos_iff, ne_eq, List.dropWhile_eq_nil_iff]
    intro hdots
    have hch := hdots ch (by simp [hcontinues])
    rw [eq_of_beq hch, hdot] at hstarts
    cases hstarts

/-- No name has a character that is not of a run. -/
theorem names_marks : ∀ ch ∈ markChars, startsName ch = false ∧ continuesName ch = false :=
  List.all_iff_forall_prop.mp (by decide +kernel)

/-- Behind a run of text, the back part of the run cannot go on either. -/
theorem maximalMunch_drop {count : Nat} (h : MaximalMunch (t :: ts)) (hlt : count < t.text.length)
    (hrun : ∀ c ∈ t.text, c ∉ markChars) : MaximalMunch (⟨t.kind, t.text.drop count⟩ :: ts) := by
  obtain ⟨htable, hmax, hrest⟩ := h
  have hne : t.text.drop count ≠ [] := by
    rw [ne_eq, List.drop_eq_nil_iff]
    omega
  obtain ⟨ch, hch⟩ := List.exists_mem_of_ne_nil _ hne
  have hmem := List.mem_of_mem_drop hch
  have hkind := ((inTable_iff.mp htable).run_of_mem hmem (hrun ch hmem)).1
  refine ⟨inTable_iff.mpr ?_, fun more hmore hfront other hother => ?_, hrest⟩
  · rw [hkind]
    exact .run hne fun c hc => hrun c (List.mem_of_mem_drop hc)
  · have hall := (hother.run_of_mem (List.mem_append_left _ hch) (hrun ch hmem)).2
    refine hmax more hmore hfront .text (.run (by simp [hmore]) fun c hc => ?_)
    rcases List.mem_append.mp hc with hc | hc
    · exact hrun c hc
    · exact hall c (List.mem_append_right _ hc)

/-- The front of a token is taken. -/
theorem maximalMunch_front {count : Nat} (h : MaximalMunch (t :: ts))
    (hrun : count < t.text.length → ∀ c ∈ t.text, c ∉ markChars) :
    MaximalMunch (if count < t.text.length then ⟨t.kind, t.text.drop count⟩ :: ts else ts) := by
  split
  · next hlt => exact maximalMunch_drop h hlt (hrun hlt)
  · exact h.2.2

/-- A name ends with the token that it begins in. -/
theorem nameLength_textOf (h : MaximalMunch (t :: ts)) (hrun : ∀ c ∈ t.text, c ∉ markChars) :
    nameLength (textOf (t :: ts)) = nameLength t.text := by
  have hsame : (t.text ++ textOf ts).takeWhile continuesName = t.text.takeWhile continuesName := by
    rw [List.takeWhile_append]
    split
    · next hall =>
      have hstop : (textOf ts).takeWhile continuesName = [] := by
        cases hrest : textOf ts with
        | nil => rfl
        | cons c rest =>
          have hmark : c ∈ markChars := by
            by_contra hc
            refine h.2.1 [c] (List.cons_ne_nil _ _) ⟨rest, by simp [hrest]⟩ .text
              (.run (by simp) ?_)
            intro d hd
            rcases List.mem_append.mp hd with hd | hd
            · exact hrun d hd
            · rwa [List.mem_singleton.mp hd]
          simp [(names_marks c hmark).2]
      rw [hstop, List.append_nil]
      exact ((List.takeWhile_prefix _).eq_of_length hall).symm
    · rfl
  rw [textOf_cons, nameLength, hsame, nameLength]

end Expression

/-! ## What is read -/

namespace Cursor

open Brackets Expression

variable {σ : Type} {c : Cursor σ} {b : Brackets} {depth bound : Nat} {ch : Char}

/-- What a text token that comes next begins with is what the text begins with. -/
theorem head_text {p : Char → Bool} (hm : MaximalMunch c.ahead)
    (hp : ∀ ch ∈ markChars, p ch = false) :
    (c.at? .text && c.currentText.head?.any p) = (textOf c.ahead).head?.any p := by
  cases ha : c.ahead with
  | nil => simp [at?, current, nth, Token.kindAt, ha]
  | cons t ts =>
    rw [ha] at hm
    obtain ⟨a, text, htext⟩ := List.exists_cons_of_ne_nil hm.1.text_ne_nil
    rw [at?, current_cons ha, currentText_cons ha, textOf_cons, htext]
    by_cases hpa : p a = true
    · have hrun := (inTable_iff.mp hm.1).run_of_mem (by rw [htext]; exact List.mem_cons_self ..)
        fun hmark => by rw [hp a hmark] at hpa; cases hpa
      simp [hrun.1]
    · simp [hpa]

theorem atText_iff (hm : MaximalMunch c.ahead) (hch : ch ∉ markChars) :
    c.atText ch = true ↔ (textOf c.ahead).head? = some ch := by
  have hhead := head_text (p := (· == ch)) hm fun m hmark =>
    beq_false_of_ne fun h => hch (h ▸ hmark)
  have hany (x : Option Char) : (x == some ch) = x.any (· == ch) := by cases x <;> rfl
  rw [atText, hany, hhead, ← hany, beq_iff_eq]

theorem atBracket_iff (hm : MaximalMunch c.ahead) :
    c.at? .openBracket = true ↔ (textOf c.ahead).head? = some '[' := by
  have hlex : lex (textOf c.ahead) = c.ahead := (lex_eq_iff _ _).mpr ⟨rfl, hm⟩
  have hkind := kindAt_lex_whole (a := textOf c.ahead) (d := '[') rfl (by decide)
  rw [hlex] at hkind
  rw [at?, beq_iff_eq]
  refine hkind.trans ⟨?_, fun h => ?_⟩
  · rintro ⟨rest, hrest⟩
    rw [← hrest]
    rfl
  · obtain ⟨rest, hrest⟩ := List.head?_eq_some_iff.mp h
    exact ⟨rest, hrest.symm⟩

/-- A token that ends behind the bracket that closes a group is a run. -/
theorem run_of_closing {t : Token} (hb : b = .round ∨ b = .square ∨ b = .curly)
    (h : Belongs t.kind t.text) (hmem : b.closing ∈ t.text) (hlong : 1 < t.text.length) :
    ∀ c ∈ t.text, c ∉ markChars := by
  rcases hb with rfl | rfl | rfl
  · exact (h.run_of_mem hmem (by decide)).2
  · rw [h.eq_singleton hmem (by decide)] at hlong
    exact absurd hlong (Nat.lt_irrefl 1)
  · exact (h.run_of_mem hmem (by decide)).2

/-- These tokens are read, they spell the text, and what is left is as if nothing had been split. -/
structure Spans (text : List Char) (c d : Cursor σ) : Prop where
  gathers : ∃ used, textOf used = text ∧ Gathers used c d
  munch : MaximalMunch d.ahead

namespace Spans

variable {d e : Cursor σ} {text more : List Char}

theorem trans (h : Spans text c d) (h' : Spans more d e) : Spans (text ++ more) c e := by
  obtain ⟨used, rfl, hused⟩ := h.gathers
  obtain ⟨next, rfl, hnext⟩ := h'.gathers
  exact ⟨⟨used ++ next, textOf_append _ _, hused.trans hnext⟩, h'.munch⟩

theorem held (h : Spans text c d) (hh : c.held = []) : d.held = [] := by
  obtain ⟨used, -, hused⟩ := h.gathers
  exact hused.held.trans hh

theorem text_eq (h : Spans text c d) : textOf c.ahead = text ++ textOf d.ahead := by
  obtain ⟨used, rfl, hused⟩ := h.gathers
  exact hused.text

end Spans

/-- A group is read as the search in the text finds it. -/
theorem balancedFrom_spans (hb : b = .round ∨ b = .square ∨ b = .curly) (hh : c.held = [])
    (hm : MaximalMunch c.ahead) {ts : List Token} (ha : c.ahead = ts) :
    Spans ((b.findClosing depth (textOf ts)).part (textOf ts)) c (balancedFrom b depth ts c) := by
  induction ts generalizing depth c with
  | nil => exact ⟨⟨[], rfl, .refl c⟩, hm⟩
  | cons t ts ih =>
    have hpart := part_findClosing_append b depth t.text (textOf ts)
    rw [ha] at hm
    rw [textOf_cons, hpart, balancedFrom]
    cases hclosing : b.findClosing depth t.text with
    | after count =>
      obtain ⟨hpos, hle, hmem⟩ := findClosing_count hclosing
      obtain ⟨hfront, hahead⟩ := Gathers.front hh ha hpos hle
      refine ⟨⟨_, by simp, hfront⟩, ?_⟩
      dsimp only
      rw [hahead]
      refine maximalMunch_front hm fun hlt => ?_
      exact run_of_closing hb (inTable_iff.mp hm.1) hmem (by omega)
    | unclosed depth =>
      have hbump := Gathers.bump hh ha
      have hnext : c.bump.ahead = ts := by rw [ahead_bump, ha, List.tail_cons]
      have hfirst : Spans t.text c c.bump := ⟨⟨[t], by simp, hbump⟩, by rw [hnext]; exact hm.2.2⟩
      exact hfirst.trans (ih (hbump.held.trans hh) hfirst.munch hnext)

theorem balanced_spans (hb : b = .round ∨ b = .square ∨ b = .curly) (hh : c.held = [])
    (hm : MaximalMunch c.ahead) (hopen : (textOf c.ahead).head? = some b.opening) :
    ∃ group, Group b (textOf c.ahead) group ∧ Spans group c (c.balanced b) := by
  obtain ⟨rest, hrest⟩ := List.head?_eq_some_iff.mp hopen
  have hne : b.opening ≠ b.closing := by rcases hb with rfl | rfl | rfl <;> decide
  have hspans : Spans _ c (balancedFrom b 0 c.ahead c) := balancedFrom_spans hb hh hm rfl
  have hgroup := group_findClosing hne rest
  rw [← hrest] at hgroup
  exact ⟨_, hgroup, hspans⟩

theorem groups_spans (hh : c.held = []) (hm : MaximalMunch c.ahead)
    (hbound : (textOf c.ahead).length < bound) :
    ∃ groups, Groups (textOf c.ahead) groups ∧ Spans groups c (c.groups bound) := by
  induction bound generalizing c with
  | zero => exact absurd hbound (Nat.not_lt_zero _)
  | succ bound ih =>
    have hgroup {b : Brackets} (hb : b = .round ∨ b = .square)
        (hopen : (textOf c.ahead).head? = some b.opening) :
        ∃ groups, Groups (textOf c.ahead) groups ∧
          Spans groups c ((c.balanced b).groups bound) := by
      obtain ⟨group, hgroup, hread⟩ := balanced_spans (by tauto) hh hm hopen
      have hlength := congrArg List.length hread.text_eq
      have hpos := List.length_pos_iff.mpr (hgroup.ne_nil fun hnil => by simp [hnil] at hopen)
      rw [List.length_append] at hlength
      obtain ⟨groups, hgroups, hrest⟩ := ih (hread.held hh) hread.munch (by omega)
      exact ⟨_, .cons hb hopen hgroup hread.text_eq hgroups, hread.trans hrest⟩
    rw [groups]
    split
    · next hat => exact hgroup (.inl rfl) ((atText_iff hm (by decide)).mp hat)
    · next hround =>
      split
      · next hat => exact hgroup (.inr rfl) ((atBracket_iff hm).mp hat)
      · next hsquare =>
        refine ⟨[], .nil (fun h => hround ((atText_iff hm (by decide)).mpr h))
          fun h => hsquare ((atBracket_iff hm).mpr h), ⟨[], rfl, .refl c⟩, hm⟩

/-- A name is read, and where it ends inside a token, this is split. -/
theorem name_spans (hh : c.held = []) (hm : MaximalMunch c.ahead)
    (hstarts : (textOf c.ahead).head?.any startsName = true) :
    Spans (name (textOf c.ahead)) c (c.splitAfter (nameLength c.currentText)).bump := by
  cases ha : c.ahead with
  | nil =>
    rw [ha] at hstarts
    cases hstarts
  | cons t ts =>
    rw [ha] at hm hstarts
    obtain ⟨ch, hhead, hch⟩ : ∃ ch, t.text.head? = some ch ∧ startsName ch = true := by
      obtain ⟨ch, text, htext⟩ := List.exists_cons_of_ne_nil hm.1.text_ne_nil
      exact ⟨ch, by rw [htext]; rfl, by simpa [htext] using hstarts⟩
    have hrun := ((inTable_iff.mp hm.1).run_of_mem (List.mem_of_head? hhead) fun hmark => by
      rw [(names_marks ch hmark).1] at hch
      cases hch).2
    have hpos : 0 < nameLength t.text := nameLength_pos (by rw [hhead]; exact hch)
    have hle := nameLength_le t.text
    obtain ⟨hfront, hahead⟩ := Gathers.front hh ha hpos hle
    rw [currentText_cons ha]
    refine ⟨⟨_, ?_, hfront⟩, hahead ▸ maximalMunch_front hm fun _ => hrun⟩
    rw [← take_nameLength, nameLength_textOf hm hrun, textOf_cons t ts,
      List.take_append_of_le_length hle]
    simp

/-- What belongs to an expression is read, and nothing beyond it. -/
theorem expressionBody_spans (hh : c.held = []) (hm : MaximalMunch c.ahead) :
    ∃ text, Expression.Extent (textOf c.ahead) text ∧ Spans text c c.expressionBody := by
  rw [expressionBody, head_text hm fun m hmark => (names_marks m hmark).1]
  split
  · next hat =>
    have hopen := (atText_iff hm (by decide)).mp hat
    obtain ⟨group, hgroup, hread⟩ := balanced_spans (b := .round) (.inl rfl) hh hm hopen
    exact ⟨group, .bracketed (.inl rfl) hopen hgroup, hread⟩
  · next hround =>
    split
    · next hat =>
      have hopen := (atText_iff hm (by decide)).mp hat
      obtain ⟨group, hgroup, hread⟩ := balanced_spans (b := .curly) (.inr (.inr rfl)) hh hm hopen
      exact ⟨group, .bracketed (.inr rfl) hopen hgroup, hread⟩
    · next hcurly =>
      split
      · next hstarts =>
        have hread := name_spans hh hm hstarts
        have hheld := hread.held hh
        obtain ⟨groups, hgroups, hrest⟩ :=
          groups_spans hheld hread.munch (Nat.lt_succ_self _)
        refine ⟨_, .named hstarts hread.text_eq hgroups, hread.trans ?_⟩
        have hbound : (c.splitAfter (nameLength c.currentText)).bump.unclaimed =
            (textOf (c.splitAfter (nameLength c.currentText)).bump.ahead).length := by
          simp [unclaimed, hheld]
        dsimp only
        rw [hbound]
        exact hrest
      · next hstarts =>
        exact ⟨[], .nothing (fun h => hround ((atText_iff hm (by decide)).mpr h))
          (fun h => hcurly ((atText_iff hm (by decide)).mpr h)) (by simpa using hstarts),
          ⟨[], rfl, .refl c⟩, hm⟩

/-- Entered on blanks, if any, and an `@`, an implicit expression claims them with the part of the
text behind that the grammar gives. What is left is as if nothing had been split. -/
theorem implicitExpression_extent {source : List Char} {blanks rest : List Token} {t : Token}
    (hh : c.held = []) (hs : c.ahead <:+ lex source) (ha : c.ahead = blanks ++ t :: rest)
    (hblanks : ∀ u ∈ blanks, u.kind = .whitespace) (ht : t.kind = .transition) :
    ∃ used text, Expression.Extent (textOf rest) text ∧
      textOf used = textOf blanks ++ '@' :: text ∧ Claims .codeBlock used c c.implicitExpression ∧
      c.implicitExpression.ahead = lex (textOf c.implicitExpression.ahead) := by
  have hm := (maximalMunch_lex source).suffix hs
  have htexts : ∀ u ∈ c.ahead, u.text ≠ [] := fun u hu => text_ne_nil_of_mem_lex (hs.subset hu)
  have hrun : c.runLength (·.kind == .whitespace) 0 = blanks.length :=
    runLength_eq ha (by simpa using hblanks) (by rintro u ⟨⟩; simp [ht])
  have hnext : c.nth blanks.length = .transition := by simp [nth, Token.kindAt, ha, ht]
  have hbehind : MaximalMunch (t :: rest) := hm.suffix ⟨blanks, ha.symm⟩
  have hat : t.text = ['@'] :=
    (ht ▸ inTable_iff.mp hbehind.1).eq_of_words (by decide) (by decide) (by decide)
  have hstart : c.start.2.held = [] := (held_start c).trans hh
  have hline : c.start.2.ahead = blanks ++ [t] ++ rest := by
    rw [ahead_start, ha, List.append_assoc, List.singleton_append]
  have hfirst := Gathers.bumpN hstart hline
  have hrest : (c.start.2.bumpN (blanks ++ [t]).length).ahead = rest := by
    rw [ahead_bumpN, hline, List.drop_left]
  obtain ⟨text, hextent, ⟨used, hused, hgathers⟩, hmunch⟩ :=
    expressionBody_spans (hfirst.held.trans hstart) (hrest.symm ▸ hbehind.2.2)
  have hexpression : c.implicitExpression =
      ((c.start.2.bumpN (blanks ++ [t]).length).expressionBody.flushRaw).complete c.start.1
        .codeBlock := by
    rw [implicitExpression, hrun, if_pos hnext, List.length_append, List.length_singleton]
  rw [hrest] at hextent
  refine ⟨blanks ++ [t] ++ used, text, hextent, ?_, ?_, ?_⟩
  · rw [textOf_append, textOf_append, hused, textOf_cons, hat]
    simp
  · rw [hexpression]
    exact (hfirst.trans hgathers).claims hh htexts .codeBlock
  · rw [hexpression, ahead_complete]
    exact ((lex_eq_iff _ _).mpr ⟨rfl, hmunch⟩).symm

/-- A name and a group behind it, both of which end inside a token. -/
theorem implicitExpression_extent_call :
    let c : Cursor Unit := { ahead := lex " @a.b(x<)$c".toList, context := {}, host := () }
    c.held = [] ∧
      c.ahead = [⟨.whitespace, [' ']⟩] ++ ⟨.transition, ['@']⟩ :: lex "a.b(x<)$c".toList ∧
      ∃ used, textOf used = " @a.b(x<)".toList ∧
        Expression.Extent "a.b(x<)$c".toList "a.b(x<)".toList ∧
        Claims .codeBlock used c c.implicitExpression ∧
        c.implicitExpression.ahead = lex "$c".toList := by
  intro c
  have hahead : c.ahead =
      [⟨.whitespace, [' ']⟩] ++ ⟨.transition, ['@']⟩ :: lex "a.b(x<)$c".toList := by decide
  obtain ⟨used, text, hextent, hused, hclaims, -⟩ := implicitExpression_extent rfl
    (List.suffix_refl (lex " @a.b(x<)$c".toList)) hahead (by simp) rfl
  have hleft : c.implicitExpression.ahead = lex "$c".toList := by decide +kernel
  have hsource : textOf c.ahead = textOf used ++ textOf (lex "$c".toList) := hleft ▸ hclaims.text
  obtain hspan : " @a.b(x<)".toList = textOf used := List.append_cancel_right hsource
  rw [← hspan] at hused
  have htext : " @".toList ++ "a.b(x<)".toList = " @".toList ++ text := hused
  obtain rfl : "a.b(x<)".toList = text := List.append_cancel_left htext
  exact ⟨rfl, hahead, used, hspan.symm, hextent, hclaims, hleft⟩

end Cursor

end TemplateMarkup
