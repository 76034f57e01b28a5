import Mathlib.Data.List.Basic
import Mathlib.Data.List.DropRight
import Mathlib.Data.List.Flatten

/-!
# Patterns with stars

The language of a pattern whose pieces stand for one element of a kind or, as a star, for any
sequence of elements (`Splits`), and the search with one backtrack point that decides it.

The search moves on together in the pattern and in the text until it meets a star; it remembers what
follows the star and where it is in the text, and comes back there, one element further on, when it
gets stuck. Only the last star is remembered. `Backtrack` is the invariant of such a search, with
one lemma for each kind of step, and `EnoughRounds` bounds its steps in the same way. The language
is a parameter in two ways (`Accepts`): the condition on the text that is left when the pattern is
used up, which makes the difference between matching a text and matching a prefix of it, and
elements that a star has to take one by one when it meets them.
-/

set_option autoImplicit false

namespace Mapache.Lib

/-- A piece of a pattern. -/
inductive Piece (α : Type) where
  /-- Any sequence of elements. -/
  | star
  /-- One element of a kind. -/
  | one (kind : α → Bool)

namespace Piece

variable {α : Type}

/-- The part of a text that the piece stands for. -/
def Stands : Piece α → List α → Prop
  | star, _ => True
  | one kind, part => ∃ a, kind a = true ∧ part = [a]

/-- The piece is used up by the element: it is of the kind, or the star has to take it. -/
def Takes (keeps : α → Bool) : Piece α → α → Prop
  | star, a => keeps a = true
  | one kind, a => kind a = true

end Piece

section Languages

variable {α : Type}

/-- The text can be split according to the pattern. -/
def Splits (pat : List (Piece α)) (text : List α) : Prop :=
  ∃ parts, List.Forall₂ Piece.Stands pat parts ∧ parts.flatten = text

/-- A prefix of the text can be split according to the pattern. -/
def SplitsPrefix (pat : List (Piece α)) (text : List α) : Prop :=
  ∃ p, p <+: text ∧ Splits pat p

/-- The pattern matches the text up to a rest with the final condition, when a star that meets an
element of the kind `keeps` stands for this one element. -/
def Accepts (keeps : α → Bool) (final : List α → Prop) : List (Piece α) → List α → Prop
  | [], text => final text
  | .one kind :: pat, text => ∃ a rest, text = a :: rest ∧ kind a = true ∧ Accepts keeps final pat rest
  | .star :: pat, text =>
    (∃ a rest, text = a :: rest ∧ keeps a = true ∧ Accepts keeps final pat rest) ∨
      ((∀ a ∈ text.head?, keeps a = false) ∧ ∃ k, Accepts keeps final pat (text.drop k))

/-- The pattern matches some end of the text. -/
def Later (keeps : α → Bool) (final : List α → Prop) (pat : List (Piece α)) (text : List α) : Prop :=
  ∃ k, Accepts keeps final pat (text.drop k)

end Languages

/-! ## Splitting a text -/

section Splits

variable {α : Type} {kind : α → Bool} {pat : List (Piece α)} {text : List α}

@[simp] theorem splits_nil : Splits [] text ↔ text = [] := by
  constructor
  · rintro ⟨parts, hparts, rfl⟩
    cases hparts
    rfl
  · rintro rfl
    exact ⟨[], .nil, rfl⟩

theorem splits_cons {t : Piece α} : Splits (t :: pat) text ↔
    ∃ part rest, part ++ rest = text ∧ t.Stands part ∧ Splits pat rest := by
  constructor
  · rintro ⟨parts, hparts, rfl⟩
    cases hparts with
    | cons hpart hrest => exact ⟨_, _, rfl, hpart, _, hrest, rfl⟩
  · rintro ⟨part, rest, rfl, hpart, parts, hparts, rfl⟩
    exact ⟨part :: parts, .cons hpart hparts, rfl⟩

theorem splits_one : Splits (.one kind :: pat) text ↔
    ∃ a rest, text = a :: rest ∧ kind a = true ∧ Splits pat rest := by
  rw [splits_cons]
  constructor
  · rintro ⟨part, rest, rfl, ⟨a, ha, rfl⟩, hrest⟩
    exact ⟨a, rest, rfl, ha, hrest⟩
  · rintro ⟨a, rest, rfl, ha, hrest⟩
    exact ⟨[a], rest, rfl, ⟨a, ha, rfl⟩, hrest⟩

theorem splits_star : Splits (.star :: pat) text ↔ ∃ k, Splits pat (text.drop k) := by
  rw [splits_cons]
  constructor
  · rintro ⟨part, rest, rfl, -, hrest⟩
    exact ⟨part.length, by rwa [List.drop_left]⟩
  · rintro ⟨k, hrest⟩
    exact ⟨text.take k, text.drop k, List.take_append_drop k text, trivial, hrest⟩

/-- Patterns one after the other. -/
theorem splits_append {pat' : List (Piece α)} : Splits (pat ++ pat') text ↔
    ∃ part rest, part ++ rest = text ∧ Splits pat part ∧ Splits pat' rest := by
  induction pat generalizing text with
  | nil => simp
  | cons t pat ih =>
    rw [List.cons_append, splits_cons]
    constructor
    · rintro ⟨part, rest, rfl, hpart, hrest⟩
      obtain ⟨mid, rest, rfl, hmid, hrest⟩ := ih.mp hrest
      exact ⟨part ++ mid, rest, List.append_assoc _ _ _,
        splits_cons.mpr ⟨part, mid, rfl, hpart, hmid⟩, hrest⟩
    · rintro ⟨part, rest, rfl, hpart, hrest⟩
      obtain ⟨part, mid, rfl, hpart, hmid⟩ := splits_cons.mp hpart
      exact ⟨part, mid ++ rest, (List.append_assoc _ _ _).symm, hpart,
        ih.mpr ⟨mid, rest, rfl, hmid, hrest⟩⟩

/-- A piece at the end of a pattern takes the last element of the text. -/
theorem splits_concat_one : Splits (pat ++ [.one kind]) text ↔
    ∃ before a, text = before ++ [a] ∧ kind a = true ∧ Splits pat before := by
  rw [splits_append]
  constructor
  · rintro ⟨part, rest, rfl, hpart, hrest⟩
    obtain ⟨a, rest, rfl, ha, hnil⟩ := splits_one.mp hrest
    rw [splits_nil.mp hnil]
    exact ⟨part, a, rfl, ha, hpart⟩
  · rintro ⟨before, a, rfl, ha, hbefore⟩
    exact ⟨before, [a], rfl, hbefore, splits_one.mpr ⟨a, [], rfl, ha, splits_nil.mpr rfl⟩⟩

/-- A star at the end of a pattern takes any end of the text. -/
theorem splits_concat_star : Splits (pat ++ [.star]) text ↔
    ∃ before, before <+: text ∧ Splits pat before := by
  rw [splits_append]
  constructor
  · rintro ⟨part, rest, rfl, hpart, -⟩
    exact ⟨part, List.prefix_append _ _, hpart⟩
  · rintro ⟨before, ⟨rest, rfl⟩, hbefore⟩
    exact ⟨before, rest, rfl, hbefore,
      splits_star.mpr ⟨rest.length, by rw [List.drop_length]; exact splits_nil.mpr rfl⟩⟩

end Splits

/-! ## The language of the search -/

section Accepts

variable {α : Type} {keeps : α → Bool} {final : List α → Prop} {t : Piece α} {pat : List (Piece α)}
  {text : List α} {a : α}

/-- After the first piece the pattern matches some end of the text. -/
theorem Accepts.later (h : Accepts keeps final (t :: pat) text) : Later keeps final pat text := by
  cases t with
  | star =>
    rcases h with ⟨a, rest, rfl, -, hrest⟩ | ⟨-, hlater⟩
    · exact ⟨1, hrest⟩
    · exact hlater
  | one kind =>
    obtain ⟨a, rest, rfl, -, hrest⟩ := h
    exact ⟨1, hrest⟩

/-- A piece that is used up by the first element. -/
theorem accepts_cons_of_takes (h : t.Takes keeps a) :
    Accepts keeps final (t :: pat) (a :: text) ↔ Accepts keeps final pat text := by
  cases t with
  | star =>
    constructor
    · rintro (⟨b, rest, heq, -, hrest⟩ | ⟨hkeeps, -⟩)
      · cases heq
        exact hrest
      · have hfalse : keeps a = false := hkeeps a rfl
        rw [Piece.Takes, hfalse] at h
        cases h
    · exact fun hrest => Or.inl ⟨a, text, rfl, h, hrest⟩
  | one kind =>
    constructor
    · rintro ⟨b, rest, heq, -, hrest⟩
      cases heq
      exact hrest
    · exact fun hrest => ⟨a, text, rfl, h, hrest⟩

/-- A star that need not take the next element takes any number of elements. -/
theorem accepts_star (h : ∀ a ∈ text.head?, keeps a = false) :
    Accepts keeps final (.star :: pat) text ↔ Later keeps final pat text := by
  refine ⟨Accepts.later, fun hlater => Or.inr ⟨h, hlater⟩⟩

theorem later_nil : Later keeps final pat [] ↔ Accepts keeps final pat [] := by
  simp [Later]

theorem later_cons : Later keeps final pat (a :: text) ↔
    Accepts keeps final pat (a :: text) ∨ Later keeps final pat text := by
  constructor
  · rintro ⟨k, hk⟩
    cases k with
    | zero => exact Or.inl hk
    | succ k => exact Or.inr ⟨k, hk⟩
  · rintro (h | ⟨k, hk⟩)
    · exact ⟨0, h⟩
    · exact ⟨k + 1, hk⟩

/-- Only stars match when no text is left. -/
theorem accepts_nil : Accepts keeps final pat [] ↔ (∀ t ∈ pat, t = .star) ∧ final [] := by
  induction pat with
  | nil => simp [Accepts]
  | cons t pat ih =>
    cases t with
    | star => simp [Accepts, ih]
    | one kind => simp [Accepts]

theorem Accepts.to_later (h : Accepts keeps final pat text) : Later keeps final pat text := ⟨0, h⟩

/-- What matches later on matches later on without its first piece. -/
theorem Later.tail (h : Later keeps final (t :: pat) text) : Later keeps final pat text := by
  obtain ⟨k, hk⟩ := h
  obtain ⟨m, hm⟩ := hk.later
  rw [List.drop_drop] at hm
  exact ⟨k + m, hm⟩

/-- A search that is ahead stays ahead: where the first piece is used up by the first element, a
match that begins later is not before the next one. -/
theorem Later.takes (ht : t.Takes keeps a) (h : Later keeps final (t :: pat) (a :: text)) :
    Later keeps final pat text := by
  rcases later_cons.mp h with hnow | hlater
  · exact ((accepts_cons_of_takes ht).mp hnow).to_later
  · -- a later match stays one when its first piece is dropped
    exact hlater.tail

/-- What the search finds is in the language. -/
theorem Accepts.splits (h : Accepts keeps (· = []) pat text) : Splits pat text := by
  induction pat generalizing text with
  | nil => exact splits_nil.mpr h
  | cons t pat ih =>
    cases t with
    | star =>
      obtain ⟨k, hk⟩ := h.later
      exact splits_star.mpr ⟨k, ih hk⟩
    | one kind =>
      obtain ⟨a, rest, heq, ha, hrest⟩ := h
      exact splits_one.mpr ⟨a, rest, heq, ha, ih hrest⟩

/-- Without a condition on the rest the language is that of the prefixes. -/
theorem accepts_prefix_iff (hkeeps : ∀ a, keeps a = false) :
    Accepts keeps (fun _ => True) pat text ↔ SplitsPrefix pat text := by
  induction pat generalizing text with
  | nil => exact iff_of_true trivial ⟨[], List.nil_prefix, splits_nil.mpr rfl⟩
  | cons t pat ih =>
    cases t with
    | star =>
      rw [accepts_star fun a _ => hkeeps a]
      constructor
      · -- what the star takes is put in front of the prefix of the rest
        rintro ⟨k, hk⟩
        obtain ⟨p, ⟨rest, hrest⟩, hp⟩ := ih.mp hk
        refine ⟨text.take k ++ p, ⟨rest, ?_⟩, ?_⟩
        · rw [List.append_assoc, hrest, List.take_append_drop]
        · exact splits_cons.mpr ⟨text.take k, p, rfl, trivial, hp⟩
      · rintro ⟨p, ⟨rest, rfl⟩, hp⟩
        obtain ⟨part, q, rfl, -, hq⟩ := splits_cons.mp hp
        refine ⟨part.length, ih.mpr ⟨q, ?_, hq⟩⟩
        rw [List.append_assoc, List.drop_left]
        exact List.prefix_append _ _
    | one kind =>
      constructor
      · rintro ⟨a, rest, rfl, ha, hrest⟩
        obtain ⟨p, hle, hp⟩ := ih.mp hrest
        exact ⟨a :: p, List.cons_prefix_cons.mpr ⟨rfl, hle⟩, splits_one.mpr ⟨a, p, rfl, ha, hp⟩⟩
      · rintro ⟨p, ⟨rest, rfl⟩, hp⟩
        obtain ⟨a, q, rfl, ha, hq⟩ := splits_one.mp hp
        exact ⟨a, q ++ rest, rfl, ha, ih.mpr ⟨q, List.prefix_append _ _, hq⟩⟩

end Accepts

/-! ## The search with one backtrack point -/

/-- What a search knows. It decides `goal`; it has got to `pat` and `text`, and the backtrack point
is what follows the last star in the pattern with a place in the text to begin at. -/
def Backtrack {α : Type} (keeps : α → Bool) (final : List α → Prop) (goal : Prop)
    (pat : List (Piece α)) (text : List α) : Option (List (Piece α) × List α) → Prop
  | none => goal ↔ Accepts keeps final pat text
  | some (starPat, starText) =>
    (goal ↔ Later keeps final starPat starText) ∧
    (Accepts keeps final starPat starText ↔ Accepts keeps final pat text) ∧
    (Later keeps final starPat starText → Later keeps final pat text)

namespace Backtrack

variable {α : Type} {keeps : α → Bool} {final : List α → Prop} {goal : Prop} {t : Piece α}
  {pat starPat : List (Piece α)} {text starText : List α} {a : α}
  {point : Option (List (Piece α) × List α)}

theorem start : Backtrack keeps final (Accepts keeps final pat text) pat text none := Iff.rfl

/-- The search moves on in the pattern and in the text. -/
theorem takes (h : Backtrack keeps final goal (t :: pat) (a :: text) point) (ht : t.Takes keeps a) :
    Backtrack keeps final goal pat text point := by
  cases point with
  | none => exact h.trans (accepts_cons_of_takes ht)
  | some last =>
    obtain ⟨hgoal, haccepts, hlater⟩ := h
    exact ⟨hgoal, haccepts.trans (accepts_cons_of_takes ht), fun hl => (hlater hl).takes ht⟩

/-- The search meets a star, which becomes the backtrack point. The older one can be forgotten: what
it could still find is found from the new one. -/
theorem star (h : Backtrack keeps final goal (.star :: pat) text point)
    (hkeeps : ∀ a ∈ text.head?, keeps a = false) :
    Backtrack keeps final goal pat text (some (pat, text)) := by
  refine ⟨?_, Iff.rfl, id⟩
  cases point with
  | none => exact Iff.trans h (accepts_star hkeeps)
  | some last =>
    obtain ⟨hgoal, haccepts, hlater⟩ := h
    constructor
    · -- no match is lost: what the older star would find begins at the new one at the earliest
      exact fun hg => (hlater (hgoal.mp hg)).tail
    · exact fun hl => hgoal.mpr (haccepts.mpr ((accepts_star hkeeps).mpr hl)).to_later

/-- The search is stuck and begins one element later. -/
theorem retry (h : Backtrack keeps final goal pat text (some (starPat, a :: starText)))
    (hstuck : ¬ Accepts keeps final pat text) :
    Backtrack keeps final goal starPat starText (some (starPat, starText)) := by
  obtain ⟨hgoal, haccepts, -⟩ := h
  refine ⟨hgoal.trans ?_, Iff.rfl, id⟩
  rw [later_cons, haccepts]
  exact or_iff_right hstuck

/-- The search is stuck without a star. -/
theorem fail (h : Backtrack keeps final goal pat text none) (hstuck : ¬ Accepts keeps final pat text) :
    ¬ goal := fun hg => hstuck (h.mp hg)

/-- What the search finds is what it looks for. -/
theorem found (h : Backtrack keeps final goal pat text point)
    (haccepts : Accepts keeps final pat text) :
    goal := by
  cases point with
  | none => exact h.mpr haccepts
  | some last => exact h.1.mpr (h.2.1.mpr haccepts).to_later

/-- At the end of the text there is nothing to try again. -/
theorem finish (h : Backtrack keeps final goal pat [] point) :
    goal ↔ Accepts keeps final pat [] := by
  refine ⟨fun hg => ?_, h.found⟩
  cases point with
  | none => exact h.mp hg
  | some last => exact later_nil.mp (h.2.2 (h.1.mp hg))

end Backtrack

/-! ## The rounds of the search -/

/-- The text that the backtrack point leaves, one more than the whole without one. -/
def pointRest {α β : Type} (text : List α) : Option (List β × List α) → Nat
  | none => text.length + 1
  | some (_, starText) => starText.length

/-- A search with patterns of at most `bound` pieces has rounds enough left. In every round the
backtrack point moves on in the text, or it stays and the search moves on in the pattern. -/
structure EnoughRounds {α β : Type} (bound fuel : Nat) (pat : List β) (text : List α)
    (point : Option (List β × List α)) : Prop where
  pat_le : pat.length ≤ bound
  point_le : ∀ s ∈ point, s.1.length ≤ bound ∧ text.length ≤ s.2.length
  lt_fuel : pointRest text point * (bound + 1) + pat.length < fuel

namespace EnoughRounds

variable {α β : Type} {bound fuel : Nat} {pat pat' starPat : List β} {text starText : List α}
  {point : Option (List β × List α)} {t : β} {a : α}

theorem start (hpat : pat.length ≤ bound) (hfuel : (text.length + 2) * (bound + 1) ≤ fuel) :
    EnoughRounds bound fuel pat text none := by
  refine ⟨hpat, fun s hs => (by cases hs), ?_⟩
  have hmul : (text.length + 2) * (bound + 1) = (text.length + 1) * (bound + 1) + (bound + 1) :=
    Nat.succ_mul _ _
  rw [pointRest]
  omega

theorem pos (h : EnoughRounds bound fuel pat text point) : 0 < fuel := Nat.zero_lt_of_lt h.lt_fuel

theorem succ (h : EnoughRounds bound fuel pat text point) :
    EnoughRounds bound (fuel + 1) pat text point :=
  ⟨h.pat_le, h.point_le, h.lt_fuel.trans (Nat.lt_succ_self fuel)⟩

theorem length_le_pointRest (h : EnoughRounds bound fuel pat text point) :
    text.length ≤ pointRest text point := by
  cases point with
  | none => exact Nat.le_succ _
  | some last => exact (h.point_le _ rfl).2

/-- A round in which the search moves on in the pattern and in the text. -/
theorem takes (h : EnoughRounds bound (fuel + 1) (t :: pat) (a :: text) point) :
    EnoughRounds bound fuel pat text point := by
  obtain ⟨hpat, hpoint, hfuel⟩ := h
  refine ⟨(Nat.le_succ _).trans hpat,
    fun s hs => ⟨(hpoint s hs).1, (Nat.le_succ _).trans (hpoint s hs).2⟩, ?_⟩
  cases point with
  | none =>
    have hmul : (text.length + 1 + 1) * (bound + 1) =
        (text.length + 1) * (bound + 1) + (bound + 1) := Nat.succ_mul _ _
    simp only [pointRest, List.length_cons] at hfuel ⊢
    omega
  | some last =>
    simp only [pointRest, List.length_cons] at hfuel ⊢
    omega

/-- A round that meets a star. More stars may be skipped with it. -/
theorem star (h : EnoughRounds bound (fuel + 1) (t :: pat) text point)
    (hle : pat'.length ≤ pat.length) : EnoughRounds bound fuel pat' text (some (pat', text)) := by
  have hmul : text.length * (bound + 1) ≤ pointRest text point * (bound + 1) :=
    Nat.mul_le_mul_right _ h.length_le_pointRest
  obtain ⟨hpat, -, hfuel⟩ := h
  rw [List.length_cons] at hpat hfuel
  have hbound : pat'.length ≤ bound := by omega
  refine ⟨hbound, ?_, ?_⟩
  · rintro s ⟨⟩
    exact ⟨hbound, le_refl _⟩
  · rw [pointRest]
    omega

/-- A round that goes back: there is text left behind the backtrack point. -/
theorem retry (h : EnoughRounds bound (fuel + 1) pat (a :: text) (some (starPat, starText))) :
    ∃ b rest, starText = b :: rest ∧ EnoughRounds bound fuel starPat rest (some (starPat, rest)) := by
  obtain ⟨-, hpoint, hfuel⟩ := h
  have hlen : starPat.length ≤ bound := (hpoint _ rfl).1
  have hle : (a :: text).length ≤ starText.length := (hpoint _ rfl).2
  cases starText with
  | nil => exact absurd hle (by simp)
  | cons b rest =>
    refine ⟨b, rest, rfl, hlen, ?_, ?_⟩
    · rintro s ⟨⟩
      exact ⟨hlen, le_refl _⟩
    · have hmul : (rest.length + 1) * (bound + 1) = rest.length * (bound + 1) + (bound + 1) :=
        Nat.succ_mul _ _
      simp only [pointRest, List.length_cons] at hfuel ⊢
      omega

end EnoughRounds

/-! ## The positions in a pattern -/

/-- The search can stand at the position after it has read the text: what is before the position
matches the text, and so may a star at the position, which stays there. -/
def At {α : Type} (pat : List (Piece α)) (read : List α) (i : Nat) : Prop :=
  i ≤ pat.length ∧ (Splits (pat.take i) read ∨
    (pat[i]? = some .star ∧ Splits (pat.take (i + 1)) read))

section Positions

variable {α : Type} {pat : List (Piece α)} {read : List α} {kind : α → Bool} {a : α} {i j : Nat}

/-- One more element moves a position over a piece of its kind, or leaves it at a star. -/
def Moves (pat : List (Piece α)) (read : List α) (a : α) (j : Nat) : Prop :=
  (pat[j]? = some .star ∧ At pat read j) ∨
    ∃ i kind, j = i + 1 ∧ pat[i]? = some (.one kind) ∧ kind a = true ∧ At pat read i

theorem take_succ_of_getElem? {t : Piece α} (h : pat[i]? = some t) :
    pat.take (i + 1) = pat.take i ++ [t] := by
  rw [List.take_add_one, h, Option.toList_some]

theorem lt_length_of_getElem? {t : Piece α} (h : pat[i]? = some t) : i < pat.length :=
  (List.getElem?_eq_some_iff.mp h).1

theorem at_length : At pat read pat.length ↔ Splits pat read := by
  rw [At, List.take_length]
  constructor
  · rintro ⟨-, h | ⟨hstar, -⟩⟩
    · exact h
    · exact absurd (lt_length_of_getElem? hstar) (lt_irrefl _)
  · exact fun h => ⟨le_refl _, Or.inl h⟩

/-- What matches before a star matches with it. -/
theorem Splits.take_star (h : Splits (pat.take i) read) (hstar : pat[i]? = some .star) :
    Splits (pat.take (i + 1)) read := by
  rw [take_succ_of_getElem? hstar]
  exact splits_concat_star.mpr ⟨read, List.prefix_refl _, h⟩

theorem at_star (hstar : pat[i]? = some .star) :
    At pat read i ↔ Splits (pat.take (i + 1)) read := by
  constructor
  · rintro ⟨-, h | ⟨-, h⟩⟩
    · exact h.take_star hstar
    · exact h
  · exact fun h => ⟨(lt_length_of_getElem? hstar).le, Or.inr ⟨hstar, h⟩⟩

theorem at_one (hone : pat[i]? = some (.one kind)) :
    At pat read i ↔ Splits (pat.take i) read := by
  constructor
  · rintro ⟨-, h | ⟨hstar, -⟩⟩
    · exact h
    · rw [hone] at hstar
      cases hstar
  · exact fun h => ⟨(lt_length_of_getElem? hone).le, Or.inl h⟩

/-- A star after the text was read with one more element. -/
theorem splits_take_star_concat (hstar : pat[i]? = some .star) :
    Splits (pat.take (i + 1)) (read ++ [a]) ↔
      Splits (pat.take i) (read ++ [a]) ∨ Splits (pat.take (i + 1)) read := by
  rw [take_succ_of_getElem? hstar, splits_concat_star, splits_concat_star]
  constructor
  · rintro ⟨before, hle, h⟩
    rcases List.prefix_concat_iff.mp hle with rfl | hle
    · exact Or.inl h
    · exact Or.inr ⟨before, hle, h⟩
  · rintro (h | ⟨before, hle, h⟩)
    · exact ⟨_, List.prefix_refl _, h⟩
    · exact ⟨before, hle.trans (List.prefix_append _ _), h⟩

theorem splits_take_one_concat (hone : pat[i]? = some (.one kind)) :
    Splits (pat.take (i + 1)) (read ++ [a]) ↔ kind a = true ∧ Splits (pat.take i) read := by
  rw [take_succ_of_getElem? hone, splits_concat_one]
  constructor
  · rintro ⟨before, b, heq, hb, h⟩
    obtain ⟨rfl, hab⟩ := List.append_inj' heq rfl
    cases hab
    exact ⟨hb, h⟩
  · rintro ⟨ha, h⟩
    exact ⟨read, a, rfl, ha, h⟩

/-- What comes before a position, after one more element. -/
theorem splits_take_concat_iff (hi : i ≤ pat.length) : Splits (pat.take i) (read ++ [a]) ↔
    (∃ i' kind, i = i' + 1 ∧ pat[i']? = some (.one kind) ∧ kind a = true ∧ At pat read i') ∨
      ∃ i', i = i' + 1 ∧ pat[i']? = some .star ∧ At pat (read ++ [a]) i' := by
  cases i with
  | zero => simp
  | succ i =>
    obtain ⟨t, ht⟩ : ∃ t, pat[i]? = some t := ⟨_, List.getElem?_eq_getElem hi⟩
    cases t with
    | star =>
      rw [← at_star ht]
      constructor
      · exact fun h => Or.inr ⟨i, rfl, ht, h⟩
      · rintro (⟨i', kind, heq, hone, -⟩ | ⟨i', heq, -, h⟩)
        · cases heq
          rw [ht] at hone
          cases hone
        · cases heq
          exact h
    | one kind =>
      rw [splits_take_one_concat ht, ← at_one ht]
      constructor
      · exact fun ⟨ha, h⟩ => Or.inl ⟨i, kind, rfl, ht, ha, h⟩
      · rintro (⟨i', kind', heq, hone, ha, h⟩ | ⟨i', heq, hstar, -⟩)
        · cases heq
          rw [ht] at hone
          cases hone
          exact ⟨ha, h⟩
        · cases heq
          rw [ht] at hstar
          cases hstar

/-- The positions after one more element: those that moved, and those behind a star at one of them.
-/
theorem at_concat : At pat (read ++ [a]) j ↔
    Moves pat read a j ∨ ∃ i, j = i + 1 ∧ pat[i]? = some .star ∧ At pat (read ++ [a]) i := by
  constructor
  · rintro ⟨hj, h⟩
    have hbefore : Splits (pat.take j) (read ++ [a]) → Moves pat read a j ∨
        ∃ i, j = i + 1 ∧ pat[i]? = some .star ∧ At pat (read ++ [a]) i := fun h =>
      ((splits_take_concat_iff hj).mp h).imp_left Or.inr
    rcases h with h | ⟨hstar, h⟩
    · exact hbefore h
    · -- the star at the position begins behind the new element, or has taken it too
      rcases (splits_take_star_concat hstar).mp h with h | h
      · exact hbefore h
      · exact Or.inl (Or.inl ⟨hstar, (at_star hstar).mpr h⟩)
  · rintro ((⟨hstar, h⟩ | hone) | hbehind)
    · exact (at_star hstar).mpr ((splits_take_star_concat hstar).mpr (Or.inr ((at_star hstar).mp h)))
    · have hj : j ≤ pat.length := by
        obtain ⟨i, kind, rfl, hi, -⟩ := hone
        exact lt_length_of_getElem? hi
      exact ⟨hj, Or.inl ((splits_take_concat_iff hj).mpr (Or.inl hone))⟩
    · have hj : j ≤ pat.length := by
        obtain ⟨i, rfl, hi, -⟩ := hbehind
        exact lt_length_of_getElem? hi
      exact ⟨hj, Or.inl ((splits_take_concat_iff hj).mpr (Or.inr hbehind))⟩

/-- **The positions after one more element** are those that are reached over stars from where one
moved. -/
theorem at_concat_iff : At pat (read ++ [a]) j ↔
    ∃ i, i ≤ j ∧ Moves pat read a i ∧ ∀ k, i ≤ k → k < j → pat[k]? = some .star := by
  induction j with
  | zero =>
    rw [at_concat]
    constructor
    · rintro (h | ⟨i, heq, -⟩)
      · exact ⟨0, le_refl 0, h, fun k _ hk => absurd hk (Nat.not_lt_zero k)⟩
      · cases heq
    · rintro ⟨i, hi, h, -⟩
      rw [Nat.le_zero.mp hi] at h
      exact Or.inl h
  | succ j ih =>
    rw [at_concat]
    constructor
    · rintro (h | ⟨i, heq, hstar, h⟩)
      · exact ⟨j + 1, le_refl _, h, fun k hk hk' => absurd hk (not_le.mpr hk')⟩
      · -- the way to the star, and the star itself
        cases heq
        obtain ⟨i, hi, hmoves, hstars⟩ := ih.mp h
        refine ⟨i, hi.trans (Nat.le_succ j), hmoves, fun k hk hk' => ?_⟩
        rcases Nat.lt_succ_iff_lt_or_eq.mp hk' with hlt | rfl
        · exact hstars k hk hlt
        · exact hstar
    · rintro ⟨i, hi, hmoves, hstars⟩
      rcases Nat.le_succ_iff.mp hi with hle | rfl
      · refine Or.inr ⟨j, rfl, hstars j hle (Nat.lt_succ_self j), ih.mpr ⟨i, hle, hmoves, ?_⟩⟩
        exact fun k hk hk' => hstars k hk (hk'.trans (Nat.lt_succ_self j))
      · exact Or.inl hmoves

/-- The empty text is matched by stars. -/
theorem splits_empty : Splits pat [] ↔ ∀ t ∈ pat, t = .star := by
  induction pat with
  | nil => simp
  | cons t pat ih =>
    cases t with
    | star =>
      rw [splits_star]
      simp [ih]
    | one kind =>
      rw [splits_one]
      simp

/-- At the start the positions are those behind stars only. -/
theorem at_nil_iff : At pat [] j ↔ ∀ k, k < j → pat[k]? = some .star := by
  have htake : ∀ n, n ≤ pat.length →
      (Splits (pat.take n) [] ↔ ∀ k, k < n → pat[k]? = some .star) := by
    intro n hn
    rw [splits_empty]
    constructor
    · intro h k hk
      have hlt : k < pat.length := lt_of_lt_of_le hk hn
      have hmem : pat[k] ∈ pat.take n := List.mem_take_iff_getElem.mpr ⟨k, by omega, rfl⟩
      rw [List.getElem?_eq_getElem hlt, h _ hmem]
    · intro h t ht
      obtain ⟨k, hk, rfl⟩ := List.mem_take_iff_getElem.mp ht
      have hstar := h k (by omega)
      rw [List.getElem?_eq_getElem (by omega)] at hstar
      exact Option.some.inj hstar
  constructor
  · rintro ⟨hj, h | ⟨hstar, h⟩⟩
    · exact (htake j hj).mp h
    · exact fun k hk => (htake (j + 1) (lt_length_of_getElem? hstar)).mp h k (by omega)
  · intro h
    have hj : j ≤ pat.length := by
      by_contra hlt
      -- otherwise there would be a star behind the end of the pattern
      have hstar := h pat.length (not_le.mp hlt)
      exact absurd (lt_length_of_getElem? hstar) (lt_irrefl _)
    exact ⟨hj, Or.inl ((htake j hj).mpr h)⟩

/-- When no position is left, none is left after more elements. -/
theorem not_at_append (h : ∀ i, ¬ At pat read i) (more : List α) : ∀ i, ¬ At pat (read ++ more) i := by
  induction more generalizing read with
  | nil => simpa using h
  | cons a more ih =>
    rw [List.append_cons]
    refine ih fun i hi => ?_
    obtain ⟨k, -, hmoves, -⟩ := at_concat_iff.mp hi
    rcases hmoves with ⟨-, hat⟩ | ⟨i', kind, -, -, -, hat⟩
    · exact h k hat
    · exact h i' hat

end Positions

end Mapache.Lib
