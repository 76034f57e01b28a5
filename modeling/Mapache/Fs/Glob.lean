import Mapache.Fs.Intermediate
import Mapache.Lib.BitSet
import Mapache.Lib.Glob

/-!
# Glob rules

The matchers of `fs/filter.rs`: `wildmatch_bytes` for one component, and `GlobRule` for paths, with
its automaton for patterns of at most 127 components and its fallback for longer ones.

`wildmatch_bytes` looks first whether the bytes of the pattern and the text are equal, so that a `*`
of the pattern that meets a `*` of the text is used up by it. Such a star stands for this one byte,
and `wildmatchBytes_iff` has the language with this rule. The automaton and the fallback decide the
prefixes of the language of a pattern (`matchesForExclude_iff`); a strict match has the automaton
only, and a longer pattern matches nothing strictly (`isStrictMatch_iff`).
-/

set_option autoImplicit false

namespace Mapache

open Lib

/-! ## Wildcards in a component -/

/-- `b'*'`. -/
def starByte : UInt8 := 0x2a

/-- `b'?'`. -/
def questionByte : UInt8 := 0x3f

/-- The loop of `wildmatch_bytes`. The bytes from `pi` and `ti` on are in `pat` and `text`, and
those from `star_pi` and `star_ti` on in `star`. The fuel bounds the rounds. -/
def wildmatchLoop : Nat → Bytes → Bytes → Option (Bytes × Bytes) → Option Bool
  | 0, _, _, _ => none
  | _ + 1, pat, [], _ => some (pat.dropWhile fun p => p = starByte).isEmpty
  | fuel + 1, pat, c :: text, star =>
    let retry :=
      match star with
      | some (starPat, starText) =>
        wildmatchLoop fuel starPat starText.tail (some (starPat, starText.tail))
      | none => some false
    match pat with
    | p :: rest =>
      if p = questionByte ∨ p = c then wildmatchLoop fuel rest text star
      else if p = starByte then
        let after := (p :: rest).dropWhile fun p => p = starByte
        wildmatchLoop fuel after (c :: text) (some (after, c :: text))
      else retry
    | [] => retry

/-- A bound for the rounds: the backtrack point moves on in the text, and until it does the search
moves on in the pattern. -/
def wildmatchRounds (pat text : Bytes) : Nat := (text.length + 2) * (pat.length + 1)

/-- `wildmatch_bytes`. -/
def wildmatchBytes (pat text : Bytes) : Bool :=
  (wildmatchLoop (wildmatchRounds pat text) pat text none).getD false

/-- What a byte of a pattern stands for. -/
def wildPiece (p : UInt8) : Piece UInt8 :=
  if p = starByte then .star
  else if p = questionByte then .one fun _ => true
  else .one fun c => c = p

/-- The text can be split according to the pattern. -/
def WildMatches (pat text : Bytes) : Prop := Splits (pat.map wildPiece) text

/-- The text can be split according to the pattern in such a way that a `*` that stands where the
text has a `*` stands for just this byte. -/
def StarsKept (pat text : Bytes) : Prop :=
  Accepts (fun c => c = starByte) (· = []) (pat.map wildPiece) text

section Wildmatch

variable {pat text rest starPat starText : Bytes} {p c : UInt8} {goal : Prop}

theorem takes_wildPiece :
    (wildPiece p).Takes (fun c => c = starByte) c ↔ p = questionByte ∨ p = c := by
  unfold wildPiece
  split
  · rename_i hstar
    subst hstar
    rw [Piece.Takes, decide_eq_true_iff]
    constructor
    · exact fun h => Or.inr h.symm
    · rintro (h | h)
      · exact absurd h (by decide)
      · exact h.symm
  · split
    · rename_i hquestion
      exact iff_of_true rfl (Or.inl hquestion)
    · rename_i hquestion
      rw [Piece.Takes, decide_eq_true_iff, or_iff_right hquestion]
      exact eq_comm

theorem wildPiece_star : wildPiece starByte = .star := if_pos rfl

theorem wildPiece_eq_star_iff : wildPiece p = .star ↔ p = starByte := by
  constructor
  · intro h
    by_contra hne
    rw [wildPiece, if_neg hne] at h
    split at h <;> cases h
  · rintro rfl
    exact wildPiece_star

/-- What is not used up and is no star does not match. -/
theorem not_accepts_wildPiece (htakes : ¬ (p = questionByte ∨ p = c)) (hstar : p ≠ starByte) :
    ¬ Accepts (fun c => c = starByte) (· = []) ((p :: rest).map wildPiece) (c :: text) := by
  rw [List.map_cons]
  cases hpiece : wildPiece p with
  | star => exact absurd (wildPiece_eq_star_iff.mp hpiece) hstar
  | one kind =>
    rintro ⟨a, more, heq, ha, -⟩
    cases heq
    refine htakes (takes_wildPiece.mp ?_)
    rw [hpiece]
    exact ha

/-- A run of stars is skipped at once. -/
theorem backtrack_dropStars (hc : c ≠ starByte) (rest : Bytes) {point : Option
    (List (Piece UInt8) × Bytes)}
    (h : Backtrack (fun c => c = starByte) (· = []) goal ((starByte :: rest).map wildPiece) (c :: text)
      point) :
    Backtrack (fun c => c = starByte) (· = []) goal
      (((starByte :: rest).dropWhile fun p => p = starByte).map wildPiece) (c :: text)
      (some (((starByte :: rest).dropWhile fun p => p = starByte).map wildPiece, c :: text)) := by
  have hkeeps : ∀ a ∈ (c :: text).head?, decide (a = starByte) = false := by
    intro a ha
    cases ha
    exact decide_eq_false hc
  rw [List.map_cons, wildPiece_star] at h
  have hnext := h.star hkeeps
  rw [List.dropWhile_cons_of_pos (by simp)]
  clear h
  induction rest with
  | nil => exact hnext
  | cons q rest ih =>
    by_cases hq : q = starByte
    · subst hq
      rw [List.map_cons, wildPiece_star] at hnext
      rw [List.dropWhile_cons_of_pos (by simp)]
      exact ih (hnext.star hkeeps)
    · rw [List.dropWhile_cons_of_neg (by simpa using hq)]
      exact hnext

theorem length_dropWhile_star (rest : Bytes) :
    ((starByte :: rest).dropWhile fun p => p = starByte).length ≤ rest.length := by
  rw [List.dropWhile_cons_of_pos (by simp)]
  exact (List.dropWhile_sublist _).length_le

/-- What is left of the pattern at the end of the text is stars. -/
theorem isEmpty_dropWhile_star : (pat.dropWhile fun p => p = starByte).isEmpty = true ↔
    Accepts (fun c => c = starByte) (· = []) (pat.map wildPiece) [] := by
  rw [accepts_nil, List.isEmpty_iff, List.dropWhile_eq_nil_iff]
  simp [wildPiece_eq_star_iff]

/-- **The search decides its goal**, and it ends. -/
theorem wildmatchLoop_spec (bound : Nat) (fuel : Nat) (pat text : Bytes)
    (star : Option (Bytes × Bytes))
    (h : Backtrack (fun c => c = starByte) (· = []) goal (pat.map wildPiece) text
      (star.map fun s => (s.1.map wildPiece, s.2)))
    (hrounds : EnoughRounds bound fuel pat text star) :
    ∃ r, wildmatchLoop fuel pat text star = some r ∧ (r = true ↔ goal) := by
  induction fuel generalizing pat text star with
  | zero => exact absurd hrounds.pos (lt_irrefl 0)
  | succ fuel ih =>
    cases text with
    | nil => exact ⟨_, rfl, isEmpty_dropWhile_star.trans h.finish.symm⟩
    | cons c text =>
      -- the search is stuck
      have hretry : ¬ Accepts (fun c => c = starByte) (· = []) (pat.map wildPiece) (c :: text) →
          ∃ r, (match star with
            | some (starPat, starText) =>
              wildmatchLoop fuel starPat starText.tail (some (starPat, starText.tail))
            | none => some false) = some r ∧ (r = true ↔ goal) := by
        intro hstuck
        cases star with
        | none => exact ⟨false, rfl, by simpa using h.fail hstuck⟩
        | some point =>
          obtain ⟨starPat, starText⟩ := point
          obtain ⟨a, starText, rfl, hleft⟩ := hrounds.retry
          exact ih starPat starText (some (starPat, starText)) (h.retry hstuck) hleft
      cases pat with
      | nil =>
        rw [wildmatchLoop.eq_def]
        exact hretry (by rintro ⟨⟩)
      | cons p rest =>
        rw [wildmatchLoop.eq_def]
        dsimp only
        split
        · rename_i htakes
          exact ih rest text star (h.takes (takes_wildPiece.mpr htakes)) hrounds.takes
        · rename_i htakes
          split
          · rename_i hp
            subst hp
            have hc : c ≠ starByte := fun hc => htakes (Or.inr hc.symm)
            exact ih _ (c :: text) _ (backtrack_dropStars hc rest h)
              (hrounds.star (length_dropWhile_star rest))
          · rename_i hp
            exact hretry (not_accepts_wildPiece htakes hp)

/-- With enough rounds the search ends with its result. -/
theorem wildmatchLoop_eq (pat text : Bytes) : ∀ fuel, wildmatchRounds pat text ≤ fuel →
    ∃ r, wildmatchLoop fuel pat text none = some r ∧ (r = true ↔ StarsKept pat text) := by
  intro fuel hfuel
  exact wildmatchLoop_spec pat.length fuel pat text none .start (.start (le_refl _) hfuel)

/-- **What `wildmatch_bytes` decides**: the language in which a star that meets a star is used up.
-/
theorem wildmatchBytes_iff : wildmatchBytes pat text = true ↔ StarsKept pat text := by
  obtain ⟨r, hr, hiff⟩ := wildmatchLoop_eq pat text _ (le_refl _)
  rw [wildmatchBytes, hr, Option.getD_some]
  exact hiff

/-- What is found is in the language. -/
theorem StarsKept.wildMatches (h : StarsKept pat text) : WildMatches pat text := Accepts.splits h

/-- **When `wildmatch_bytes` decides the language of the pattern.** It always ends, and it finds a
text of the language if and only if the text can be split in such a way that every star that meets a
star stands for just this byte. -/
theorem wildmatchBytes_exact_iff (pat text : Bytes) :
    (∀ fuel, wildmatchRounds pat text ≤ fuel →
      wildmatchLoop fuel pat text none = some (wildmatchBytes pat text)) ∧
    ((wildmatchBytes pat text = true ↔ WildMatches pat text) ↔
      (WildMatches pat text → StarsKept pat text)) := by
  constructor
  · intro fuel hfuel
    obtain ⟨r, hr, hiff⟩ := wildmatchLoop_eq pat text fuel hfuel
    rw [hr, Option.some.injEq, Bool.eq_iff_iff, hiff, wildmatchBytes_iff]
  · rw [wildmatchBytes_iff]
    exact ⟨fun h => h.mpr, fun h => ⟨StarsKept.wildMatches, h⟩⟩

/-- **A text with a star is not found**: the pattern `*b` takes the star of `*ab` for its own, and
is stuck. -/
theorem wildmatchBytes_misses_star : wildmatchBytes [starByte, 0x62] [starByte, 0x61, 0x62] = false ∧
    WildMatches [starByte, 0x62] [starByte, 0x61, 0x62] := by
  refine ⟨by decide, ?_⟩
  exact splits_star.mpr ⟨2, splits_one.mpr ⟨0x62, [], rfl, by decide, splits_nil.mpr rfl⟩⟩

end Wildmatch

/-! ## Glob rules -/

/-- `CompMatcher`, as on Unix, where every component has bytes. -/
inductive CompMatcher where
  | literal (comp : Bytes)
  | any
  | wildcard (pat : Bytes)
  deriving DecidableEq

namespace CompMatcher

/-- `CompMatcher::matches`. -/
def «matches» : CompMatcher → Bytes → Bool
  | literal lit, comp => comp = lit
  | any, _ => true
  | wildcard pat, comp => wildmatchBytes pat comp

/-- `CompMatcher::from_os`. -/
def fromOs (pat : Bytes) : CompMatcher :=
  if pat = [starByte] then any
  else if pat.any fun c => c = starByte ∨ c = questionByte then wildcard pat
  else literal pat

end CompMatcher

/-- `GlobToken`. -/
inductive GlobToken where
  | doubleStar
  | comp (m : CompMatcher)
  deriving DecidableEq

/-- `is_double_star_component`. -/
def isDoubleStarComponent (os : Bytes) : Bool := os = [starByte, starByte]

/-- `GlobRule::compile_component`. -/
def compileComponent (os : Bytes) : GlobToken :=
  if isDoubleStarComponent os then .doubleStar else .comp (.fromOs os)

/-- The components of a path as the filters look at them. -/
def osComponents (path : Path) : List Bytes := path.map Component.asOsStr

/-- `GlobRule`. The words have 128 bits. -/
structure GlobRule where
  tokens : List GlobToken
  dsMask : BitVec 128
  len : Nat
  accept : BitVec 128

namespace GlobRule

/-- `GlobRule::MAX_TOKENS_U128`. -/
def maxTokensU128 : Nat := 127

/-- `GlobRule::new`. -/
def new (pattern : Path) : GlobRule where
  tokens := (osComponents pattern).map compileComponent
  dsMask :=
    if pattern.length ≤ maxTokensU128 then
      ((osComponents pattern).map compileComponent).zipIdx.foldl
        (fun mask t => if t.1 = .doubleStar then mask ||| BitVec.twoPow 128 t.2 else mask) 0#128
    else 0#128
  len := min pattern.length maxTokensU128
  accept := if pattern.length ≤ maxTokensU128 then BitVec.twoPow 128 pattern.length else 0#128

variable (rule : GlobRule)

/-- `epsilon_closure_u128`. -/
def epsilonClosure (s : BitVec 128) : BitVec 128 := closure rule.dsMask 128 s

/-- What the state `i` adds to the next states. The accepting state adds nothing. -/
def stepState (comp : Bytes) (i : Nat) : BitVec 128 :=
  if rule.len ≤ i then 0#128
  else
    match rule.tokens[i]? with
    | some .doubleStar => BitVec.twoPow 128 i
    | some (.comp m) => if m.matches comp then BitVec.twoPow 128 (i + 1) else 0#128
    | none => 0#128

/-- `step_u128`. -/
def step (states : BitVec 128) (comp : Bytes) : BitVec 128 :=
  rule.epsilonClosure
    (foldBits (fun next i => next ||| rule.stepState comp i) 128 states 0#128)

/-- The loop of `is_strict_match` over the components. -/
def strictLoop : BitVec 128 → List Bytes → Bool
  | states, [] => states &&& rule.accept ≠ 0#128
  | states, comp :: comps =>
    let states := rule.step states comp
    if states = 0#128 then false else strictLoop states comps

/-- `is_strict_match`. -/
def isStrictMatch (path : Path) : Bool :=
  rule.strictLoop (rule.epsilonClosure 1#128) (osComponents path)

/-- The loop of `matches_prefix_u128` over the components. -/
def prefixLoop : BitVec 128 → List Bytes → Bool
  | _, [] => false
  | states, comp :: comps =>
    let states := rule.step states comp
    if states = 0#128 then false
    else if states &&& rule.accept ≠ 0#128 then true
    else prefixLoop states comps

/-- `matches_prefix_u128`. -/
def matchesPrefixU128 (path : Path) : Bool :=
  let states := rule.epsilonClosure 1#128
  if states &&& rule.accept ≠ 0#128 then true else rule.prefixLoop states (osComponents path)

end GlobRule

/-! ### The fallback -/

/-- The loop of `match_prefix_components` after the leading `**`. What is left of the pattern and of
the path from `p` and `t` on is in `pattern` and `path`. The fuel bounds the rounds. -/
def matchPrefixLoop : Nat → List GlobToken → List Bytes → Option (List GlobToken × List Bytes) →
    Option Bool
  | 0, _, _, _ => none
  | _ + 1, pattern, [], _ => some (pattern.dropWhile fun t => t = .doubleStar).isEmpty
  | _ + 1, [], _ :: _, _ => some true
  | fuel + 1, .doubleStar :: rest, comp :: path, _ =>
    if rest = [] then some true
    else matchPrefixLoop fuel rest (comp :: path) (some (rest, comp :: path))
  | fuel + 1, .comp m :: rest, comp :: path, star =>
    if m.matches comp then
      if rest = [] then some true else matchPrefixLoop fuel rest path star
    else
      match star with
      | some (_, []) => some false
      | some (pAfter, _ :: tNext) => matchPrefixLoop fuel pAfter tNext (some (pAfter, tNext))
      | none => some false

/-- The loop over the leading `**`, and what follows it. -/
def matchPrefixFrom (fuel : Nat) : List GlobToken → List Bytes → Option (List GlobToken × List Bytes) →
    Option Bool
  | .doubleStar :: rest, path, _ =>
    if rest = [] then some true else matchPrefixFrom fuel rest path (some (rest, path))
  | pattern, path, star => matchPrefixLoop fuel pattern path star

/-- A bound for the rounds. -/
def matchPrefixRounds (pattern : List GlobToken) (path : List Bytes) : Nat :=
  (path.length + 2) * (pattern.length + 1)

/-- `match_prefix_components`. -/
def matchPrefixComponents (pattern : List GlobToken) (path : List Bytes) : Bool :=
  (matchPrefixFrom (matchPrefixRounds pattern path) pattern path none).getD false

/-- `matches_prefix_fallback`. -/
def GlobRule.matchesPrefixFallback (rule : GlobRule) (path : Path) : Bool :=
  matchPrefixComponents rule.tokens (osComponents path)

/-- `matches_for_exclude`. -/
def GlobRule.matchesForExclude (rule : GlobRule) (path : Path) : Bool :=
  if rule.tokens.length ≤ GlobRule.maxTokensU128 then rule.matchesPrefixU128 path
  else rule.matchesPrefixFallback path

/-! ### The language of a pattern -/

/-- What a token stands for. -/
def GlobToken.piece : GlobToken → Piece Bytes
  | doubleStar => .star
  | comp m => .one m.matches

/-- The pattern of a rule, whose language the rule is to decide. -/
def GlobRule.pieces (rule : GlobRule) : List (Piece Bytes) := rule.tokens.map GlobToken.piece

namespace GlobRule

/-- A rule for the automaton: its words are those of its tokens. -/
structure Narrow (rule : GlobRule) : Prop where
  length : rule.tokens.length ≤ maxTokensU128
  len : rule.len = rule.tokens.length
  dsMask : ∀ i, rule.dsMask.getLsbD i = true ↔ rule.tokens[i]? = some .doubleStar
  accept : rule.accept = BitVec.twoPow 128 rule.tokens.length

/-- The states are the positions that the automaton can stand at. -/
def Holds (rule : GlobRule) (states : BitVec 128) (read : List Bytes) : Prop :=
  ∀ i, states.getLsbD i = true ↔ At rule.pieces read i

section Automaton

variable {rule : GlobRule} {pattern path : Path} {states : BitVec 128} {read comps : List Bytes}
  {comp : Bytes} {i j : Nat}

@[simp] theorem length_pieces : rule.pieces.length = rule.tokens.length := List.length_map _

theorem length_tokens_new : (new pattern).tokens.length = pattern.length := by
  rw [new, List.length_map, osComponents, List.length_map]

theorem pieces_eq_star : rule.pieces[i]? = some .star ↔ rule.tokens[i]? = some .doubleStar := by
  rw [pieces, List.getElem?_map, Option.map_eq_some_iff]
  constructor
  · rintro ⟨t, ht, hpiece⟩
    cases t with
    | doubleStar => exact ht
    | comp m => cases hpiece
  · exact fun h => ⟨_, h, rfl⟩

theorem pieces_eq_one {kind : Bytes → Bool} : rule.pieces[i]? = some (.one kind) ↔
    ∃ m, rule.tokens[i]? = some (.comp m) ∧ m.matches = kind := by
  rw [pieces, List.getElem?_map, Option.map_eq_some_iff]
  constructor
  · rintro ⟨t, ht, hpiece⟩
    cases t with
    | doubleStar => cases hpiece
    | comp m => exact ⟨m, ht, Piece.one.inj hpiece⟩
  · rintro ⟨m, ht, rfl⟩
    exact ⟨_, ht, rfl⟩

/-- The mask that the loop of `new` builds. -/
theorem getLsbD_dsMask (tokens : List GlobToken) (start : Nat) (mask : BitVec 128)
    (hlen : start + tokens.length ≤ maxTokensU128) (i : Nat) :
    ((tokens.zipIdx start).foldl
      (fun mask t => if t.1 = .doubleStar then mask ||| BitVec.twoPow 128 t.2 else mask)
      mask).getLsbD i = true ↔
    mask.getLsbD i = true ∨ ∃ k, tokens[k]? = some .doubleStar ∧ i = start + k := by
  induction tokens generalizing start mask with
  | nil => simp
  | cons t tokens ih =>
    rw [List.length_cons] at hlen
    rw [List.zipIdx_cons, List.foldl_cons, ih (start + 1) _ (by omega)]
    have hlater : (∃ k, tokens[k]? = some .doubleStar ∧ i = start + 1 + k) ↔
        ∃ k, (t :: tokens)[k + 1]? = some .doubleStar ∧ i = start + (k + 1) := by
      refine exists_congr fun k => ?_
      rw [List.getElem?_cons_succ]
      exact and_congr_right fun _ => by omega
    have hsplit : (∃ k, (t :: tokens)[k]? = some .doubleStar ∧ i = start + k) ↔
        (t = .doubleStar ∧ i = start) ∨
          ∃ k, (t :: tokens)[k + 1]? = some .doubleStar ∧ i = start + (k + 1) := by
      constructor
      · rintro ⟨k, hk, rfl⟩
        cases k with
        | zero => exact Or.inl ⟨Option.some.inj hk, rfl⟩
        | succ k => exact Or.inr ⟨k, hk, rfl⟩
      · rintro (⟨rfl, rfl⟩ | ⟨k, hk, rfl⟩)
        · exact ⟨0, rfl, rfl⟩
        · exact ⟨k + 1, hk, rfl⟩
    rw [hlater, hsplit, ← or_assoc]
    refine or_congr_left ?_
    by_cases ht : t = .doubleStar
    · have hlt : start < 128 := by
        rw [maxTokensU128] at hlen
        omega
      rw [if_pos ht, BitVec.getLsbD_or, Bool.or_eq_true, getLsbD_twoPow_iff hlt]
      exact or_congr_right (and_iff_right ht).symm
    · rw [if_neg ht]
      simp [ht]

/-- A pattern that is not too long gives a rule for the automaton. -/
theorem narrow_new (h : pattern.length ≤ maxTokensU128) : (new pattern).Narrow where
  length := by rwa [length_tokens_new]
  len := by
    rw [length_tokens_new]
    exact Nat.min_eq_left h
  dsMask := by
    intro i
    have hlen : 0 + ((osComponents pattern).map compileComponent).length ≤ maxTokensU128 := by
      rw [Nat.zero_add, List.length_map, osComponents, List.length_map]
      exact h
    rw [new]
    dsimp only
    rw [if_pos h, getLsbD_dsMask _ 0 _ hlen]
    simp
  accept := by
    rw [length_tokens_new, new]
    exact if_pos h

/-- What a state adds: a `**` keeps the state, and another token that matches leads to the next one.
-/
theorem getLsbD_stepState (h : rule.Narrow) : (rule.stepState comp i).getLsbD j = true ↔
    (rule.tokens[i]? = some .doubleStar ∧ j = i) ∨
      ∃ m, rule.tokens[i]? = some (.comp m) ∧ m.matches comp = true ∧ j = i + 1 := by
  unfold stepState
  rw [h.len]
  split
  · rename_i hle
    rw [List.getElem?_eq_none hle]
    simp
  · rename_i hlt
    have hlength := h.length
    rw [maxTokensU128] at hlength
    cases htoken : rule.tokens[i]? with
    | none => simp
    | some t =>
      cases t with
      | doubleStar =>
        have hi : i < 128 := by omega
        rw [getLsbD_twoPow_iff hi]
        simp
      | comp m =>
        have hi : i + 1 < 128 := by omega
        dsimp only
        by_cases hm : m.matches comp = true
        · rw [if_pos hm, getLsbD_twoPow_iff hi]
          simp [hm]
        · rw [if_neg hm]
          simp [hm]

/-- The closure goes over the `**`. -/
theorem getLsbD_epsilonClosure (h : rule.Narrow) (hj : j < 128) :
    (rule.epsilonClosure states).getLsbD j = true ↔
      ∃ i, i ≤ j ∧ states.getLsbD i = true ∧
        ∀ k, i ≤ k → k < j → rule.pieces[k]? = some .star := by
  rw [epsilonClosure, getLsbD_closure hj]
  simp only [h.dsMask, pieces_eq_star]

/-- A position is a bit of the word. -/
theorem at_lt (h : rule.Narrow) (hat : At rule.pieces read j) : j < 128 := by
  have hle := hat.1
  rw [length_pieces] at hle
  have hlength := h.length
  rw [maxTokensU128] at hlength
  omega

theorem holds_start (h : rule.Narrow) : rule.Holds (rule.epsilonClosure 1#128) [] := by
  have hone : ∀ i, (1#128).getLsbD i = true ↔ i = 0 := by
    intro i
    rw [show (1#128) = BitVec.twoPow 128 0 by rfl, BitVec.getLsbD_twoPow]
    simp [eq_comm]
  have hiff : ∀ j, j < 128 → ((rule.epsilonClosure 1#128).getLsbD j = true ↔ At rule.pieces [] j) := by
    intro j hj
    rw [getLsbD_epsilonClosure h hj, at_nil_iff]
    constructor
    · rintro ⟨i, -, hi, hstars⟩
      rw [(hone i).mp hi] at hstars
      exact fun k hk => hstars k (Nat.zero_le k) hk
    · exact fun hstars => ⟨0, Nat.zero_le j, (hone 0).mpr rfl, fun k _ hk => hstars k hk⟩
  intro j
  exact ⟨fun hbit => (hiff j (BitVec.lt_of_getLsbD hbit)).mp hbit,
    fun hat => (hiff j (at_lt h hat)).mpr hat⟩

/-- **One step of the automaton** leads to the positions after one more component. -/
theorem Holds.step (h : rule.Narrow) (hstates : rule.Holds states read) (comp : Bytes) :
    rule.Holds (rule.step states comp) (read ++ [comp]) := by
  have hnext : ∀ j, (foldBits (fun next i => next ||| rule.stepState comp i) 128 states
      0#128).getLsbD j = true ↔ Moves rule.pieces read comp j := by
    intro j
    rw [getLsbD_foldBits _ 128 states 0#128 (fun i _ => Nat.le_add_left _ _)]
    simp only [BitVec.getLsbD_zero, Bool.false_eq_true, false_or, getLsbD_stepState h, hstates _]
    constructor
    · rintro ⟨i, hat, ⟨hstar, rfl⟩ | ⟨m, hone, hm, rfl⟩⟩
      · exact Or.inl ⟨pieces_eq_star.mpr hstar, hat⟩
      · exact Or.inr ⟨i, m.matches, rfl, pieces_eq_one.mpr ⟨m, hone, rfl⟩, hm, hat⟩
    · rintro (⟨hstar, hat⟩ | ⟨i, kind, rfl, hone, hkind, hat⟩)
      · exact ⟨j, hat, Or.inl ⟨pieces_eq_star.mp hstar, rfl⟩⟩
      · obtain ⟨m, hm, rfl⟩ := pieces_eq_one.mp hone
        exact ⟨i, hat, Or.inr ⟨m, hm, hkind, rfl⟩⟩
  have hiff : ∀ j, j < 128 →
      ((rule.step states comp).getLsbD j = true ↔ At rule.pieces (read ++ [comp]) j) := by
    intro j hj
    rw [GlobRule.step, getLsbD_epsilonClosure h hj, at_concat_iff]
    simp only [hnext]
  intro j
  exact ⟨fun hbit => (hiff j (BitVec.lt_of_getLsbD hbit)).mp hbit,
    fun hat => (hiff j (at_lt h hat)).mpr hat⟩

/-- The accepting state says that the whole pattern is used up. -/
theorem Holds.accepts (h : rule.Narrow) (hstates : rule.Holds states read) :
    states &&& rule.accept ≠ 0#128 ↔ Splits rule.pieces read := by
  have hlength := h.length
  rw [maxTokensU128] at hlength
  rw [h.accept, BitVec.and_twoPow, ← at_length, ← hstates, length_pieces]
  cases hbit : states.getLsbD rule.tokens.length with
  | false => simp
  | true =>
    refine iff_of_true (fun hzero => ?_) rfl
    have hset : (BitVec.twoPow 128 rule.tokens.length).getLsbD rule.tokens.length = true := by
      exact (getLsbD_twoPow_iff (by omega)).mpr rfl
    rw [if_pos rfl] at hzero
    rw [hzero, BitVec.getLsbD_zero] at hset
    cases hset

/-- Without a state nothing more is matched. -/
theorem Holds.not_splits (hstates : rule.Holds 0#128 read) (more : List Bytes) :
    ¬ Splits rule.pieces (read ++ more) := by
  have hnone : ∀ i, ¬ At rule.pieces read i := fun i hat => by
    have hbit := (hstates i).mpr hat
    rw [BitVec.getLsbD_zero] at hbit
    cases hbit
  exact fun hsplits => not_at_append hnone more _ (at_length.mpr hsplits)

theorem strictLoop_iff (h : rule.Narrow) (hstates : rule.Holds states read) (comps : List Bytes) :
    rule.strictLoop states comps = true ↔ Splits rule.pieces (read ++ comps) := by
  induction comps generalizing states read with
  | nil =>
    rw [strictLoop, decide_eq_true_iff, List.append_nil]
    exact hstates.accepts h
  | cons comp comps ih =>
    have hnext := hstates.step h comp
    rw [strictLoop, List.append_cons]
    split
    · rename_i hzero
      rw [hzero] at hnext
      exact iff_of_false (by decide) (hnext.not_splits comps)
    · exact ih hnext

theorem prefixLoop_iff (h : rule.Narrow) (hstates : rule.Holds states read) (comps : List Bytes) :
    rule.prefixLoop states comps = true ↔
      ∃ comp p, comp :: p <+: comps ∧ Splits rule.pieces (read ++ comp :: p) := by
  induction comps generalizing states read with
  | nil => simp [prefixLoop]
  | cons comp comps ih =>
    have hnext := hstates.step h comp
    rw [prefixLoop]
    split
    · rename_i hzero
      rw [hzero] at hnext
      refine iff_of_false (by decide) ?_
      rintro ⟨c, p, hle, hsplits⟩
      rw [(List.cons_prefix_cons.mp hle).1, List.append_cons] at hsplits
      exact hnext.not_splits p hsplits
    · split
      · rename_i haccept
        refine iff_of_true rfl ⟨comp, [], ?_, (hnext.accepts h).mp haccept⟩
        exact List.cons_prefix_cons.mpr ⟨rfl, List.nil_prefix⟩
      · rename_i haccept
        rw [ih hnext]
        constructor
        · rintro ⟨c, p, hle, hsplits⟩
          rw [← List.append_cons] at hsplits
          exact ⟨comp, c :: p, List.cons_prefix_cons.mpr ⟨rfl, hle⟩, hsplits⟩
        · rintro ⟨c, p, hle, hsplits⟩
          obtain ⟨hc, hrest⟩ := List.cons_prefix_cons.mp hle
          subst hc
          cases p with
          | nil => exact absurd ((hnext.accepts h).mpr hsplits) haccept
          | cons d p =>
            rw [List.append_cons] at hsplits
            exact ⟨d, p, hrest, hsplits⟩

/-- **The automaton decides the prefixes of the language.** -/
theorem matchesPrefixU128_iff (h : rule.Narrow) (path : Path) :
    rule.matchesPrefixU128 path = true ↔ SplitsPrefix rule.pieces (osComponents path) := by
  have hstart := holds_start h
  rw [matchesPrefixU128]
  split
  · rename_i haccept
    exact iff_of_true rfl ⟨[], List.nil_prefix, (hstart.accepts h).mp haccept⟩
  · rename_i haccept
    rw [prefixLoop_iff h hstart]
    constructor
    · rintro ⟨c, p, hle, hsplits⟩
      exact ⟨c :: p, hle, hsplits⟩
    · rintro ⟨p, hle, hsplits⟩
      cases p with
      | nil => exact absurd ((hstart.accepts h).mpr hsplits) haccept
      | cons c p => exact ⟨c, p, hle, hsplits⟩

end Automaton

end GlobRule

/-! ### The fallback decides the same -/

section Fallback

variable {pattern rest starPat : List GlobToken} {path starText : List Bytes} {goal : Prop}
  {point : Option (List GlobToken × List Bytes)}

/-- The invariant of the fallback. -/
def Searches (goal : Prop) (pattern : List GlobToken) (path : List Bytes)
    (point : Option (List GlobToken × List Bytes)) : Prop :=
  Backtrack (fun _ => false) (fun _ => True) goal (pattern.map GlobToken.piece) path
    (point.map fun s => (s.1.map GlobToken.piece, s.2))

/-- A `**` becomes the backtrack point. -/
theorem Searches.doubleStar (h : Searches goal (.doubleStar :: rest) path point) :
    Searches goal rest path (some (rest, path)) :=
  Backtrack.star h fun _ _ => rfl

/-- The pattern is used up. -/
theorem Searches.found (h : Searches goal [] path point) : goal := Backtrack.found h trivial

theorem isEmpty_dropWhile_doubleStar :
    (pattern.dropWhile fun t => t = .doubleStar).isEmpty = true ↔
      Accepts (fun _ => false) (fun _ => True) (pattern.map GlobToken.piece) [] := by
  rw [accepts_nil, List.isEmpty_iff, List.dropWhile_eq_nil_iff]
  constructor
  · intro h
    refine ⟨fun t ht => ?_, trivial⟩
    obtain ⟨token, htoken, rfl⟩ := List.mem_map.mp ht
    rw [of_decide_eq_true (h token htoken)]
    rfl
  · rintro ⟨h, -⟩ token htoken
    have hstar := h _ (List.mem_map_of_mem htoken)
    cases token with
    | doubleStar => rfl
    | comp m => cases hstar

/-- The loop decides its goal, and it ends as that of `wildmatch_bytes` does. -/
theorem matchPrefixLoop_spec (bound fuel : Nat) (pattern : List GlobToken) (path : List Bytes)
    (point : Option (List GlobToken × List Bytes)) (h : Searches goal pattern path point)
    (hrounds : EnoughRounds bound fuel pattern path point) :
    ∃ r, matchPrefixLoop fuel pattern path point = some r ∧ (r = true ↔ goal) := by
  induction fuel generalizing pattern path point with
  | zero => exact absurd hrounds.pos (lt_irrefl 0)
  | succ fuel ih =>
    cases path with
    | nil => exact ⟨_, rfl, isEmpty_dropWhile_doubleStar.trans (Backtrack.finish h).symm⟩
    | cons comp path =>
      cases pattern with
      | nil => exact ⟨true, rfl, iff_of_true rfl h.found⟩
      | cons t rest =>
        cases t with
        | doubleStar =>
          have hnext := h.doubleStar
          rw [matchPrefixLoop]
          split
          · rename_i hnil
            subst hnil
            exact ⟨true, rfl, iff_of_true rfl hnext.found⟩
          · exact ih rest (comp :: path) _ hnext (hrounds.star (le_refl _))
        | comp m =>
          rw [matchPrefixLoop.eq_def]
          dsimp only
          split
          · rename_i hm
            have hnext : Searches goal rest path point := Backtrack.takes h hm
            split
            · rename_i hnil
              subst hnil
              exact ⟨true, rfl, iff_of_true rfl hnext.found⟩
            · exact ih rest path point hnext hrounds.takes
          · rename_i hm
            -- the search is stuck and goes back to the last `**`
            have hstuck : ¬ Accepts (fun _ => false) (fun _ => True)
                ((GlobToken.comp m :: rest).map GlobToken.piece) (comp :: path) := by
              rintro ⟨a, more, heq, ha, -⟩
              cases heq
              exact hm ha
            cases point with
            | none => exact ⟨false, rfl, by simpa using Backtrack.fail h hstuck⟩
            | some last =>
              obtain ⟨starPat, starText⟩ := last
              obtain ⟨a, starText, rfl, hleft⟩ := hrounds.retry
              exact ih starPat starText (some (starPat, starText))
                (Backtrack.retry h hstuck) hleft

/-- So does the whole of it, with the loop over the leading `**`. -/
theorem matchPrefixFrom_spec (bound fuel : Nat) (h : Searches goal pattern path point)
    (hrounds : EnoughRounds bound fuel pattern path point) :
    ∃ r, matchPrefixFrom fuel pattern path point = some r ∧ (r = true ↔ goal) := by
  induction pattern generalizing point with
  | nil => exact matchPrefixLoop_spec bound fuel [] path point h hrounds
  | cons t rest ih =>
    cases t with
    | comp m => exact matchPrefixLoop_spec bound fuel _ path point h hrounds
    | doubleStar =>
      have hnext := h.doubleStar
      rw [matchPrefixFrom]
      split
      · rename_i hnil
        subst hnil
        exact ⟨true, rfl, iff_of_true rfl hnext.found⟩
      · exact ih hnext (hrounds.succ.star (le_refl _))

theorem matchPrefixFrom_eq (pattern : List GlobToken) (path : List Bytes) :
    ∀ fuel, matchPrefixRounds pattern path ≤ fuel →
      ∃ r, matchPrefixFrom fuel pattern path none = some r ∧
        (r = true ↔ SplitsPrefix (pattern.map GlobToken.piece) path) := by
  intro fuel hfuel
  have hkeeps : ∀ comp : Bytes, (fun _ => false) comp = false := fun _ => rfl
  rw [← accepts_prefix_iff hkeeps]
  exact matchPrefixFrom_spec pattern.length fuel .start (.start (le_refl _) hfuel)

/-- **The fallback decides the prefixes of the language.** -/
theorem matchPrefixComponents_iff (pattern : List GlobToken) (path : List Bytes) :
    matchPrefixComponents pattern path = true ↔
      SplitsPrefix (pattern.map GlobToken.piece) path := by
  obtain ⟨r, hr, hiff⟩ := matchPrefixFrom_eq pattern path _ (le_refl _)
  rw [matchPrefixComponents, hr, Option.getD_some]
  exact hiff

end Fallback

/-! ### Excludes and strict matches -/

namespace GlobRule

section Matches

variable (pattern path : Path)

/-- An exclude rule matches the paths with a prefix in the language of its pattern. -/
theorem matchesForExclude_iff : (new pattern).matchesForExclude path = true ↔
    SplitsPrefix (new pattern).pieces (osComponents path) := by
  unfold matchesForExclude
  split
  · rename_i hlen
    rw [length_tokens_new] at hlen
    exact matchesPrefixU128_iff (narrow_new hlen) path
  · exact matchPrefixComponents_iff _ _

/-- **Both matchers decide the prefixes of the language of the pattern**, and the fallback always
ends.
-/
theorem exclude_matchers_exact :
    ((new pattern).matchesForExclude path = true ↔
      SplitsPrefix (new pattern).pieces (osComponents path)) ∧
    (pattern.length ≤ maxTokensU128 → ((new pattern).matchesPrefixU128 path = true ↔
      SplitsPrefix (new pattern).pieces (osComponents path))) ∧
    ((new pattern).matchesPrefixFallback path = true ↔
      SplitsPrefix (new pattern).pieces (osComponents path)) ∧
    ∀ fuel, matchPrefixRounds (new pattern).tokens (osComponents path) ≤ fuel →
      matchPrefixFrom fuel (new pattern).tokens (osComponents path) none =
        some ((new pattern).matchesPrefixFallback path) := by
  refine ⟨matchesForExclude_iff pattern path, fun h => matchesPrefixU128_iff (narrow_new h) path,
    matchPrefixComponents_iff _ _, fun fuel hfuel => ?_⟩
  obtain ⟨r, hr, hiff⟩ := matchPrefixFrom_eq (new pattern).tokens (osComponents path) fuel hfuel
  rw [hr, Option.some.injEq, Bool.eq_iff_iff, hiff]
  exact (matchPrefixComponents_iff _ _).symm

/-- Without an accepting state nothing matches strictly. -/
theorem strictLoop_of_accept {rule : GlobRule} (h : rule.accept = 0#128) (states : BitVec 128)
    (comps : List Bytes) : rule.strictLoop states comps = false := by
  induction comps generalizing states with
  | nil => simp [strictLoop, h]
  | cons comp comps ih =>
    rw [strictLoop]
    split
    · rfl
    · exact ih _

/-- A strict match takes a pattern that is not too long and a path of its language. -/
theorem isStrictMatch_iff : (new pattern).isStrictMatch path = true ↔
    pattern.length ≤ maxTokensU128 ∧ Splits (new pattern).pieces (osComponents path) := by
  by_cases hlen : pattern.length ≤ maxTokensU128
  · have hnarrow := narrow_new hlen
    rw [isStrictMatch, strictLoop_iff hnarrow (holds_start hnarrow), List.nil_append]
    exact (and_iff_right hlen).symm
  · have haccept : (new pattern).accept = 0#128 := if_neg hlen
    rw [isStrictMatch, strictLoop_of_accept haccept]
    exact iff_of_false (by decide) fun h => hlen h.1

/-- The prefixes of a path, by their components. -/
theorem splitsPrefix_osComponents {pieces : List (Piece Bytes)} :
    SplitsPrefix pieces (osComponents path)
    ↔ ∃ p, p <+: path ∧ Splits pieces (osComponents p) := by
  constructor
  · rintro ⟨q, hle, hq⟩
    obtain ⟨p, hp, rfl⟩ := List.prefix_map_iff.mp hle
    exact ⟨p, hp, hq⟩
  · rintro ⟨p, hle, hp⟩
    exact ⟨osComponents p, hle.map _, hp⟩

/-- **When excluding is a strict match of a prefix**: for patterns of at most 127 components, and
for the paths without a prefix in the language. -/
theorem exclude_iff_strict_prefix :
    ((new pattern).matchesForExclude path = true ↔
      ∃ p, p <+: path ∧ (new pattern).isStrictMatch p = true) ↔
    (pattern.length ≤ maxTokensU128 ∨ ¬ SplitsPrefix (new pattern).pieces (osComponents path)) := by
  rw [matchesForExclude_iff]
  simp only [isStrictMatch_iff]
  by_cases hlen : pattern.length ≤ maxTokensU128
  · simp only [hlen, true_and, true_or, iff_true]
    exact splitsPrefix_osComponents path
  · simp [hlen]

end Matches

/-- A pattern of 128 components, each `a`. -/
def longPattern : Path := List.replicate 128 (.normal [0x61])

/-- **A long pattern excludes what it does not match**: that of 128 components `a` excludes the path
that is written the same, but matches no prefix of it strictly. -/
theorem long_pattern_not_strict : (new longPattern).matchesForExclude longPattern = true ∧
    ∀ p, (new longPattern).isStrictMatch p = false := by
  have hlen : ¬ longPattern.length ≤ maxTokensU128 := by
    simp [longPattern, maxTokensU128]
  constructor
  · refine (matchesForExclude_iff longPattern longPattern).mpr ⟨_, List.prefix_refl _, ?_⟩
    have hrep : ∀ n : Nat, Splits (List.replicate n (compileComponent [0x61]).piece)
        (List.replicate n [0x61]) := by
      intro n
      induction n with
      | zero => exact splits_nil.mpr rfl
      | succ n ih => exact splits_one.mpr ⟨[0x61], _, rfl, by decide, ih⟩
    rw [pieces, new, longPattern, osComponents]
    simp only [List.map_replicate]
    exact hrep 128
  · intro p
    rw [Bool.eq_false_iff]
    exact fun h => hlen ((isStrictMatch_iff longPattern p).mp h).1

end GlobRule

end Mapache
