import Mapache.Common.Error
import Mapache.Lib.Outcome
import Mapache.Repository.RetentionRules

/-!
# Duration strings

`parse_duration_string` of `utils/mod.rs`, and the rule `KeepWithin` that uses its result. Numbers
that do not fit are errors, but the durations are built and added with operations that panic out of
their range, and a number of years is multiplied before this is checked.

A string is parsed, and used, as its grammar says just when the terms that are read add up to a
duration and the current time less this duration can be represented (`parsesTotally_iff`).
-/

set_option autoImplicit false

namespace Mapache

open Lib

/-! ## The parser -/

/-- `i64::MAX`. -/
def i64Max : Nat := 2 ^ 63 - 1

/-- The number of some digits. -/
def decimalValue (digits : List Char) : Nat := Nat.ofDigitChars 10 digits 0

/-- `parse::<i64>` of a string of digits. -/
def parseI64 (digits : List Char) : Option Nat :=
  if decimalValue digits ≤ i64Max then some (decimalValue digits) else none

/-- A result that is unwrapped. -/
def orPanic (value : Option Int) : Outcome MapacheError Int := value.elim .panic .ok

/-- A product of numbers of type `i64`, which panics on an overflow when the build checks it and
wraps around otherwise. -/
def mulI64 (checks : Bool) (a b : Int) : Outcome MapacheError Int :=
  if -(2 ^ 63) ≤ a * b ∧ a * b < 2 ^ 63 then .ok (a * b)
  else if checks then .panic
  else .ok (signed 64 (a * b))

/-- `Duration + Duration`. -/
def addDurations (a b : Int) : Outcome MapacheError Int := orPanic (duration 1 (a + b))

/-- The duration of a number and its unit, in nanoseconds. -/
def unitDuration (checks : Bool) (s : String) (num : Nat) (c : Char) : Outcome MapacheError Int :=
  match c with
  | 's' => orPanic (duration nanosPerSecond num)
  | 'm' => orPanic (duration nanosPerMinute num)
  | 'h' => orPanic (duration nanosPerHour num)
  | 'd' => orPanic (duration nanosPerDay num)
  | 'w' => orPanic (duration (7 * nanosPerDay) num)
  | 'y' => do
      let days ← mulI64 checks num 365
      orPanic (duration nanosPerDay days)
  | _ => .err (.format s!"invalid duration unit: '{c}' in \"{s}\"")

/-- The loop of `parse_duration_string`. -/
def parseLoop (checks : Bool) (s : String) : List Char → Int → List Char → Outcome MapacheError Int
  | [], totalDuration, currentNumStr =>
    if currentNumStr = [] then .ok totalDuration
    else
      let number := String.ofList currentNumStr
      .err (.format (s!"invalid duration format: trailing number '{number}' without unit in " ++
        s!"\"{s}\""))
  | c :: cs, totalDuration, currentNumStr =>
    if c.isDigit then parseLoop checks s cs totalDuration (currentNumStr ++ [c])
    else if currentNumStr = [] then
      .err (.format (s!"invalid duration format: unit '{c}' without preceding number in " ++
        s!"\"{s}\""))
    else
      match parseI64 currentNumStr with
      | none =>
        .err (.format (s!"failed to parse number before unit '{c}' in \"{s}\": " ++
          "number too large to fit in target type"))
      | some num => do
          let added ← unitDuration checks s num c
          let totalDuration ← addDurations totalDuration added
          parseLoop checks s cs totalDuration []

/-- `parse_duration_string`, in nanoseconds. -/
def parseDurationString (checks : Bool) (s : String) : Outcome MapacheError Int :=
  parseLoop checks s s.toList 0 []

/-! ## The grammar -/

/-- The seconds of a unit. -/
def unitSeconds (c : Char) : Option Nat :=
  match c with
  | 's' => some 1
  | 'm' => some 60
  | 'h' => some 3600
  | 'd' => some 86400
  | 'w' => some (7 * 86400)
  | 'y' => some (365 * 86400)
  | _ => none

/-- A sequence of numbers, each followed by a unit, and its seconds. -/
inductive Terms (ok : Nat → Prop) : List Char → Nat → Prop where
  | nil : Terms ok [] 0
  | cons {digits rest : List Char} {unit : Char} {seconds total : Nat} : digits ≠ [] →
      (∀ c ∈ digits, c.isDigit = true) → ok (decimalValue digits) →
      unitSeconds unit = some seconds → Terms ok rest total →
      Terms ok (digits ++ unit :: rest) (decimalValue digits * seconds + total)

/-- A duration of so many seconds can be represented: it has at most `i64::MAX` milliseconds. -/
def Representable (seconds : Nat) : Prop := seconds * 1000 ≤ i64Max

/-- The string is parsed as a sequence of terms whose sum can be represented, without a panic, and
the rule `KeepWithin` does not overflow for what is accepted. -/
structure ParsesTotally (checks : Bool) (s : String) (now : Int) : Prop where
  returns : (parseDurationString checks s).Returns
  ok_iff : ∀ value, parseDurationString checks s = .ok value ↔
    ∃ total : Nat, Terms (fun _ => True) s.toList total ∧ Representable total ∧
      value = total * nanosPerSecond
  keepWithin : ∀ value, parseDurationString checks s = .ok value → ∀ zone l,
    (RetentionRule.keepWithin value).idsToKeep zone l now ≠ none

/-! ## Terms -/

section Terms

variable {ok : Nat → Prop} {start cs current : List Char} {total t : Nat} {c : Char}

/-- A unit is no digit. -/
theorem not_isDigit_of_unit {seconds : Nat} (h : unitSeconds c = some seconds) :
    c.isDigit = false ∧ 1 ≤ seconds := by
  unfold unitSeconds at h
  split at h <;> cases h
  all_goals exact ⟨by decide, by norm_num⟩

/-- Digits alone are no term. -/
theorem Terms.of_digits (h : Terms ok start total) (hdigits : ∀ c ∈ start, c.isDigit = true) :
    start = [] ∧ total = 0 := by
  cases h with
  | nil => exact ⟨rfl, rfl⟩
  | cons hne hall hok hunit hrest =>
    have hunit' := hdigits _ (List.mem_append_right _ List.mem_cons_self)
    rw [(not_isDigit_of_unit hunit).1] at hunit'
    cases hunit'

/-- The digits before the first other character. -/
theorem digits_unique {digits rest : List Char} {unit : Char}
    (hdigits : ∀ c ∈ digits, c.isDigit = true) (hunit : unit.isDigit = false)
    (hcurrent : ∀ c ∈ current, c.isDigit = true) (hc : c.isDigit = false)
    (h : digits ++ unit :: rest = current ++ c :: cs) :
    digits = current ∧ unit = c ∧ rest = cs := by
  have htake := congrArg (List.takeWhile Char.isDigit) h
  rw [List.takeWhile_append_of_pos hdigits, List.takeWhile_append_of_pos hcurrent,
    List.takeWhile_cons_of_neg (by simp [hunit]), List.takeWhile_cons_of_neg (by simp [hc]),
    List.append_nil, List.append_nil] at htake
  subst htake
  have hrest := List.cons.inj (List.append_cancel_left h)
  exact ⟨rfl, hrest.1, hrest.2⟩

/-- **The first term** at the start of a text is made of the digits up to the first other
character. -/
theorem Terms.inv (h : Terms ok start total) (hcurrent : ∀ c ∈ current, c.isDigit = true)
    (hc : c.isDigit = false) (hstart : start <+: current ++ c :: cs) :
    (start = [] ∧ total = 0) ∨ (current ≠ [] ∧ ok (decimalValue current) ∧
      ∃ seconds rest total', unitSeconds c = some seconds ∧ start = current ++ c :: rest ∧
        rest <+: cs ∧ Terms ok rest total' ∧ total = decimalValue current * seconds + total') := by
  cases h with
  | nil => exact .inl ⟨rfl, rfl⟩
  | cons hne hdigits hok hunit hrest =>
    obtain ⟨after, heq⟩ := hstart
    rw [List.append_assoc, List.cons_append] at heq
    obtain ⟨rfl, rfl, rfl⟩ :=
      digits_unique hdigits (not_isDigit_of_unit hunit).1 hcurrent hc heq
    exact .inr ⟨hne, hok, _, _, _, hunit, rfl, List.prefix_append _ _, hrest, rfl⟩

/-- The first term of a text that is a sequence of terms. -/
theorem Terms.inv_self (h : Terms ok (current ++ c :: cs) total)
    (hcurrent : ∀ c ∈ current, c.isDigit = true) (hc : c.isDigit = false) :
    current ≠ [] ∧ ok (decimalValue current) ∧ ∃ seconds total', unitSeconds c = some seconds ∧
      Terms ok cs total' ∧ total = decimalValue current * seconds + total' := by
  rcases h.inv hcurrent hc (List.prefix_refl _) with
    ⟨hnil, -⟩ | ⟨hne, hnum, seconds, rest, total', hunit, heq, -, hrest, htotal⟩
  · simp at hnil
  · obtain rfl := (List.cons.inj (List.append_cancel_left heq)).2
    exact ⟨hne, hnum, seconds, total', hunit, hrest, htotal⟩

theorem Terms.mono {ok' : Nat → Prop} (h : Terms ok start total) (hok : ∀ n, ok n → ok' n) :
    Terms ok' start total := by
  induction h with
  | nil => exact .nil
  | cons hne hdigits hn hunit _ ih => exact .cons hne hdigits (hok _ hn) hunit ih

theorem Representable.of_add {a b : Nat} (h : Representable (a + b)) :
    a ≤ i64Max ∧ Representable b := by
  unfold Representable at h ⊢
  generalize i64Max = limit at h ⊢
  omega

/-- In a sum that can be represented every number is an `i64`. -/
theorem Terms.of_representable (h : Terms ok start total) (hrep : Representable total) :
    Terms (· ≤ i64Max) start total := by
  induction h with
  | nil => exact .nil
  | @cons digits rest unit seconds total hne hdigits hn hunit _ ih =>
    have hpos := (not_isDigit_of_unit hunit).2
    have hle : decimalValue digits ≤ decimalValue digits * seconds :=
      Nat.le_mul_of_pos_right _ hpos
    obtain ⟨hproduct, hrest⟩ := hrep.of_add
    exact .cons hne hdigits (hle.trans hproduct) hunit (ih hrest)

end Terms

/-! ## The durations -/

section Durations

variable {num seconds t : Nat} {c : Char} {s : String} {checks : Bool}

/-- What a constructor of durations does, for a unit of so many seconds. -/
theorem duration_unit {unit : Int} (hunit : unit = seconds * nanosPerSecond) (num : Nat) :
    duration unit num = if num * seconds * 1000 ≤ i64Max then
      some ((num * seconds : Nat) * nanosPerSecond) else none := by
  have hmul : unit * num = ((num * seconds : Nat) : Int) * nanosPerSecond := by
    rw [hunit]
    push_cast
    ring
  rw [duration, hmul]
  generalize num * seconds = n
  have habs : |(n : Int) * nanosPerSecond| = n * 1000000000 :=
    abs_of_nonneg (Int.mul_nonneg (Int.natCast_nonneg n) (by decide))
  rw [habs]
  unfold i64Max
  split
  · rw [if_pos (by omega)]
  · rw [if_neg (by omega)]

/-- Two durations of whole seconds. -/
theorem addDurations_seconds (t n : Nat) : addDurations (t * nanosPerSecond) (n * nanosPerSecond) =
    if (t + n) * 1000 ≤ i64Max then .ok ((t + n : Nat) * nanosPerSecond) else .panic := by
  have hsum : (t : Int) * nanosPerSecond + n * nanosPerSecond =
      ((t + n : Nat) : Int) * nanosPerSecond := by
    push_cast
    ring
  have hduration : duration 1 (((t + n : Nat) : Int) * nanosPerSecond) =
      duration nanosPerSecond (t + n : Nat) := by
    rw [duration, duration, one_mul, mul_comm]
  have hone : nanosPerSecond = ((1 : Nat) : Int) * nanosPerSecond := by decide
  rw [addDurations, hsum, hduration, duration_unit hone, mul_one]
  split
  · rfl
  · rfl

/-- **What a unit does**: without one of the units it is an error, and otherwise the duration, or a
panic when it cannot be represented. A build that does not check the product of the years may go on
with another duration. -/
theorem unitDuration_spec (checks : Bool) (s : String) (num : Nat) (c : Char) :
    (unitSeconds c = none → ∃ e, unitDuration checks s num c = .err e) ∧
      ∀ seconds, unitSeconds c = some seconds →
        (num * seconds * 1000 ≤ i64Max →
          unitDuration checks s num c = .ok ((num * seconds : Nat) * nanosPerSecond)) ∧
        (¬ num * seconds * 1000 ≤ i64Max → unitDuration true s num c = .panic) := by
  have hunit : ∀ {unit : Int} {seconds : Nat}, unit = seconds * nanosPerSecond →
      (num * seconds * 1000 ≤ i64Max →
        orPanic (duration unit num) = .ok ((num * seconds : Nat) * nanosPerSecond)) ∧
      (¬ num * seconds * 1000 ≤ i64Max → orPanic (duration unit num) = .panic) := by
    intro unit seconds hunit
    rw [duration_unit hunit]
    refine ⟨fun hle => ?_, fun hgt => ?_⟩
    · rw [if_pos hle]
      rfl
    · rw [if_neg hgt]
      rfl
  refine ⟨fun hnone => ?_, fun seconds hseconds => ?_⟩
  · unfold unitDuration
    split
    case h_7 => exact ⟨_, rfl⟩
    all_goals cases hnone
  · unfold unitSeconds at hseconds
    split at hseconds
    case h_6 =>
      cases hseconds
      have hday : nanosPerDay = ((86400 : Nat) : Int) * nanosPerSecond := by decide
      have hyear : (num : Int) * 365 = ((num * 365 : Nat) : Int) := by push_cast; rfl
      have hmul : num * 365 * 86400 = num * (365 * 86400) := Nat.mul_assoc ..
      have hdays := duration_unit hday (num * 365)
      rw [hmul] at hdays
      simp only [unitDuration, mulI64, hyear]
      unfold i64Max at hdays ⊢
      refine ⟨fun hle => ?_, fun hgt => ?_⟩
      · rw [if_pos (by omega), Outcome.ok_bind, hdays, if_pos hle]
        rfl
      · -- either the product is out of range or the days are
        split
        · rw [Outcome.ok_bind, hdays, if_neg hgt]
          rfl
        · rfl
    case h_7 => cases hseconds
    all_goals
      cases hseconds
      exact hunit (by decide)

end Durations

/-! ## The loop -/

section Loop

variable {checks : Bool} {s : String} {cs current : List Char} {t : Nat} {now : Int}

/-- Whatever terms the text starts with, their sum with the seconds so far can be represented. -/
def Bounded (t : Nat) (text : List Char) : Prop :=
  ∀ start total, start <+: text → Terms (· ≤ i64Max) start total → Representable (t + total)

/-- The text up to the end of the first term. -/
theorem Bounded.tail {c : Char} {seconds : Nat} (h : Bounded t (current ++ c :: cs))
    (hcurrent : ∀ c ∈ current, c.isDigit = true) (hne : current ≠ [])
    (hnum : decimalValue current ≤ i64Max) (hunit : unitSeconds c = some seconds) :
    Bounded (t + decimalValue current * seconds) cs := by
  intro start total hstart hterms
  rw [Nat.add_assoc]
  have hpre : current ++ c :: start <+: current ++ c :: cs :=
    (List.prefix_append_right_inj _).mpr ((List.prefix_cons_inj c).mpr hstart)
  exact h _ _ hpre (.cons hne hcurrent hnum hunit hterms)

theorem digits_concat {c : Char} (hcurrent : ∀ c ∈ current, c.isDigit = true)
    (hc : c.isDigit = true) : ∀ d ∈ current ++ [c], d.isDigit = true := by
  intro d hd
  rcases List.mem_append.mp hd with hold | hnew
  · exact hcurrent d hold
  · rw [List.mem_singleton.mp hnew]
    exact hc

/-- The outcome is the sum of the terms of the text, added to the seconds so far, or an error when
the text is no sequence of terms. -/
def Reads (o : Outcome MapacheError Int) (t : Nat) (text : List Char) : Prop :=
  o.Returns ∧ ∀ value, o = .ok value ↔
    ∃ total, Terms (· ≤ i64Max) text total ∧ value = ((t + total : Nat) : Int) * nanosPerSecond

theorem reads_err {text : List Char} (h : ∀ total, ¬ Terms (· ≤ i64Max) text total)
    (e : MapacheError) : Reads (.err e) t text := by
  refine ⟨Outcome.returns_err e, fun value => ?_⟩
  constructor
  · rintro ⟨⟩
  · rintro ⟨total, hterms, -⟩
    exact absurd hterms (h total)

/-- One term more. -/
theorem Reads.cons {o : Outcome MapacheError Int} {c : Char} {seconds : Nat}
    (h : Reads o (t + decimalValue current * seconds) cs)
    (hcurrent : ∀ c ∈ current, c.isDigit = true) (hne : current ≠ [])
    (hnum : decimalValue current ≤ i64Max) (hunit : unitSeconds c = some seconds) :
    Reads o t (current ++ c :: cs) := by
  refine ⟨h.1, fun value => (h.2 value).trans ?_⟩
  constructor
  · rintro ⟨total', hterms, rfl⟩
    refine ⟨_, .cons hne hcurrent hnum hunit hterms, ?_⟩
    rw [Nat.add_assoc]
  · rintro ⟨total, hterms, rfl⟩
    obtain ⟨-, -, seconds', total', hunit', hrest, rfl⟩ :=
      hterms.inv_self hcurrent (not_isDigit_of_unit hunit).1
    rw [hunit] at hunit'
    cases hunit'
    exact ⟨total', hrest, by rw [Nat.add_assoc]⟩

/-- **The loop on a text whose terms can be added**: it does not panic, and it gives the sum just
when the text is a sequence of terms. The induction is on the rest of the text, with the digits that
were read last. -/
theorem reads_parseLoop (hcurrent : ∀ c ∈ current, c.isDigit = true)
    (h : Bounded t (current ++ cs)) :
    Reads (parseLoop checks s cs (t * nanosPerSecond) current) t (current ++ cs) := by
  induction cs generalizing current t with
  | nil =>
    rw [List.append_nil, parseLoop]
    by_cases hnil : current = []
    · subst hnil
      rw [if_pos rfl]
      refine ⟨Outcome.returns_ok _, fun value => ?_⟩
      constructor
      · rintro ⟨⟩
        exact ⟨0, .nil, rfl⟩
      · rintro ⟨total, hterms, rfl⟩
        rw [(hterms.of_digits nofun).2]
        rfl
    · rw [if_neg hnil]
      exact reads_err (fun total hterms => hnil (hterms.of_digits hcurrent).1) _
  | cons c cs ih =>
    rw [parseLoop]
    by_cases hc : c.isDigit = true
    · have happ : current ++ c :: cs = (current ++ [c]) ++ cs := by
        rw [List.append_assoc, List.singleton_append]
      rw [if_pos hc]
      rw [happ] at h ⊢
      exact ih (digits_concat hcurrent hc) h
    · rw [if_neg hc]
      have hc' : c.isDigit = false := Bool.not_eq_true _ ▸ hc
      by_cases hnil : current = []
      · rw [if_pos hnil]
        exact reads_err (fun total hterms => (hterms.inv_self hcurrent hc').1 hnil) _
      · rw [if_neg hnil, parseI64]
        -- the number is parsed before its unit is looked at
        by_cases hnum : decimalValue current ≤ i64Max
        · rw [if_pos hnum]
          dsimp only
          have hspec := unitDuration_spec checks s (decimalValue current) c
          cases hunit : unitSeconds c with
          | none =>
            obtain ⟨e, he⟩ := hspec.1 hunit
            rw [he]
            refine reads_err (fun total hterms => ?_) _
            obtain ⟨-, -, seconds, total', hunit', -⟩ := hterms.inv_self hcurrent hc'
            rw [hunit] at hunit'
            cases hunit'
          | some seconds =>
            have htail := h.tail hcurrent hnil hnum hunit
            have hsum : (t + decimalValue current * seconds) * 1000 ≤ i64Max :=
              htail [] 0 List.nil_prefix .nil
            have hterm : decimalValue current * seconds * 1000 ≤ i64Max :=
              (Nat.mul_le_mul_right _ (Nat.le_add_left _ _)).trans hsum
            rw [(hspec.2 seconds hunit).1 hterm, Outcome.ok_bind, addDurations_seconds,
              if_pos hsum, Outcome.ok_bind]
            exact (@ih [] _ nofun htail).cons hcurrent hnil hnum hunit
        · rw [if_neg hnum]
          exact reads_err (fun total hterms => hnum (hterms.inv_self hcurrent hc').2.1) _

/-- **The loop on a text whose first terms cannot be added**: it panics. -/
theorem parseLoop_panic (hcurrent : ∀ c ∈ current, c.isDigit = true) (ht : Representable t)
    {start : List Char} {total : Nat} (hstart : start <+: current ++ cs)
    (hterms : Terms (· ≤ i64Max) start total) (hsum : ¬ Representable (t + total)) :
    parseLoop true s cs (t * nanosPerSecond) current = .panic := by
  induction cs generalizing current t start total with
  | nil =>
    rw [List.append_nil] at hstart
    obtain ⟨-, rfl⟩ := hterms.of_digits fun c hc => hcurrent c (hstart.subset hc)
    exact absurd ht hsum
  | cons c cs ih =>
    rw [parseLoop]
    by_cases hc : c.isDigit = true
    · rw [if_pos hc]
      refine ih (digits_concat hcurrent hc) ht ?_ hterms hsum
      rw [List.append_assoc]
      exact hstart
    · have hc' : c.isDigit = false := Bool.not_eq_true _ ▸ hc
      rcases hterms.inv hcurrent hc' hstart with
        ⟨-, rfl⟩ | ⟨hne, hnum, seconds, rest, total', hunit, -, hrest, hterms', rfl⟩
      · exact absurd ht hsum
      · rw [if_neg hc, if_neg hne, parseI64, if_pos hnum]
        dsimp only
        have hspec := (unitDuration_spec true s (decimalValue current) c).2 seconds hunit
        -- the duration of the term panics, or the addition, or a later term
        by_cases hterm : decimalValue current * seconds * 1000 ≤ i64Max
        · rw [hspec.1 hterm, Outcome.ok_bind, addDurations_seconds]
          by_cases hadd : (t + decimalValue current * seconds) * 1000 ≤ i64Max
          · rw [if_pos hadd, Outcome.ok_bind]
            refine ih nofun hadd hrest hterms' ?_
            rw [Nat.add_assoc]
            exact hsum
          · rw [if_neg hadd]
            rfl
        · rw [hspec.2 hterm]
          rfl

/-- **When a duration string is parsed, and used, as its grammar says**, in a build that checks
arithmetic and in one that does not: the terms that the string starts with add up to a duration, and
the current time less the duration of the string can be represented. -/
theorem parsesTotally_iff (s : String) (now : Int) :
    (∀ checks, ParsesTotally checks s now) ↔
      (∀ start total, start <+: s.toList → Terms (· ≤ i64Max) start total → Representable total) ∧
        ∀ total, Terms (fun _ => True) s.toList total → Representable total →
          InRange (now - total * nanosPerSecond) := by
  have hzero : (0 : Int) = ((0 : Nat) : Int) * nanosPerSecond := rfl
  have hnil : ∀ c ∈ ([] : List Char), c.isDigit = true := nofun
  have hwithin : ∀ value, (∀ zone l, (RetentionRule.keepWithin value).idsToKeep zone l now ≠ none) ↔
      InRange (now - value) := by
    intro value
    simp only [RetentionRule.idsToKeep, subTime]
    constructor
    · intro h
      by_contra hout
      exact h (.fixed 0) [] (by rw [if_neg hout]; rfl)
    · intro hin zone l
      rw [if_pos hin]
      exact Option.some_ne_none _
  constructor
  · intro h
    constructor
    · intro start total hstart hterms
      by_contra hsum
      have hpanic : parseDurationString true s = .panic := by
        rw [parseDurationString, hzero]
        refine parseLoop_panic hnil (Nat.zero_le _) hstart hterms ?_
        rw [Nat.zero_add]
        exact hsum
      exact (h true).returns hpanic
    · intro total hterms hrep
      have haccepted := ((h true).ok_iff _).mpr ⟨total, hterms, hrep, rfl⟩
      exact (hwithin _).mp ((h true).keepWithin _ haccepted)
  · rintro ⟨hbounded, hrange⟩ checks
    have hloop : Bounded 0 ([] ++ s.toList) := by
      intro start total hstart hterms
      rw [Nat.zero_add]
      exact hbounded start total hstart hterms
    obtain ⟨hreturns, hok⟩ := @reads_parseLoop checks s s.toList [] 0 hnil hloop
    have hok_iff : ∀ value, parseDurationString checks s = .ok value ↔
        ∃ total : Nat, Terms (fun _ => True) s.toList total ∧ Representable total ∧
          value = total * nanosPerSecond := by
      intro value
      refine (hok value).trans ?_
      simp only [List.nil_append, Nat.zero_add]
      constructor
      · rintro ⟨total, hterms, rfl⟩
        exact ⟨total, hterms.mono fun _ _ => trivial,
          hbounded _ _ (List.prefix_refl _) hterms, rfl⟩
      · rintro ⟨total, hterms, hrep, rfl⟩
        exact ⟨total, hterms.of_representable hrep, rfl⟩
    refine ⟨hreturns, hok_iff, fun value hvalue => ?_⟩
    obtain ⟨total, hterms, hrep, rfl⟩ := (hok_iff value).mp hvalue
    exact (hwithin _).mpr (hrange total hterms hrep)

/-- A number that fits but whose duration does not: the parser panics. A number of years wraps
around, and 144 days are accepted, when the build does not check it. A duration that is accepted
overflows in `KeepWithin`. -/
theorem not_parsesTotally : parseDurationString true "9223372036854775807s" = .panic ∧
    parseDurationString false "9223372036854775807s" = .panic ∧
    parseDurationString true "50539024859478224y" = .panic ∧
    parseDurationString false "50539024859478224y" = .ok (144 * nanosPerDay) ∧
    parseDurationString true "9223372036854775s" = .ok (9223372036854775 * nanosPerSecond) ∧
    (∀ checks now, ¬ ParsesTotally checks "9223372036854775807s" now) ∧
    ¬ ParsesTotally true "9223372036854775s" 0 := by
  have hpanic : ∀ checks, parseDurationString checks "9223372036854775807s" = .panic := by decide
  have hok : parseDurationString true "9223372036854775s" =
      .ok (9223372036854775 * nanosPerSecond) := by decide
  refine ⟨hpanic true, hpanic false, by decide, by decide, hok,
    fun checks now h => h.returns (hpanic checks), fun h => ?_⟩
  exact h.keepWithin _ hok (.fixed 0) [] (by decide)

end Loop

end Mapache
