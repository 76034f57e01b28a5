import Mathlib.Data.List.Basic

/-!
# Results of code that may panic

`Outcome ε α` is what a call can end in: a value, an error of type `ε`, or a panic. Sequencing stops
at the first error or panic. Slicing a list with a bound behind its end panics. `Returns` is the
absence of a panic; it goes through a sequence step by step (`Returns.bind`), and `toOption` forgets
which of the failures it was. `Computes` is both: no panic, and the values of a model without failures.
-/

set_option autoImplicit false

namespace Mapache.Lib

universe u

/-- The end of a call. -/
inductive Outcome (ε : Type u) (α : Type u) where
  | ok (value : α)
  | err (error : ε)
  | panic
  deriving DecidableEq

namespace Outcome

variable {ε α β : Type u}

/-- Go on with the value. -/
def bind (o : Outcome ε α) (f : α → Outcome ε β) : Outcome ε β :=
  match o with
  | ok a => f a
  | err e => err e
  | panic => panic

instance : Monad (Outcome ε) where
  pure := ok
  bind := bind

@[simp] theorem pure_def (a : α) : (pure a : Outcome ε α) = ok a := rfl
@[simp] theorem ok_bind (a : α) (f : α → Outcome ε β) : (ok a >>= f) = f a := rfl
@[simp] theorem err_bind (e : ε) (f : α → Outcome ε β) : (err e >>= f) = err e := rfl
@[simp] theorem panic_bind (f : α → Outcome ε β) : (panic >>= f) = panic := rfl

/-- `Result::ok`, where a panic is no value either. -/
def toOption : Outcome ε α → Option α
  | ok a => some a
  | _ => none

@[simp] theorem toOption_ok (a : α) : (ok a : Outcome ε α).toOption = some a := rfl
@[simp] theorem toOption_err (e : ε) : (err e : Outcome ε α).toOption = none := rfl
@[simp] theorem toOption_panic : (panic : Outcome ε α).toOption = none := rfl

/-- Two sequences have the same values when their calls have. -/
theorem toOption_bind_eq {o : Outcome ε α} {p : Option α} {f : α → Outcome ε β} {g : α → Option β}
    (h : o.toOption = p) (hf : ∀ a, (f a).toOption = g a) : (o >>= f).toOption = p >>= g := by
  subst h
  cases o with
  | ok a => exact hf a
  | err e => rfl
  | panic => rfl

theorem toOption_eq_some {o : Outcome ε α} {a : α} : o.toOption = some a ↔ o = ok a := by
  cases o <;> simp

/-- The call does not panic. -/
def Returns (o : Outcome ε α) : Prop := o ≠ panic

theorem returns_ok (a : α) : (ok a : Outcome ε α).Returns := by
  intro h
  cases h

theorem returns_err (e : ε) : (err e : Outcome ε α).Returns := by
  intro h
  cases h

/-- A sequence does not panic when neither its first call nor what follows its value does. -/
theorem Returns.bind {o : Outcome ε α} {f : α → Outcome ε β} (h : o.Returns)
    (hf : ∀ a, o = ok a → (f a).Returns) : (o >>= f).Returns := by
  cases o with
  | ok a => exact hf a rfl
  | err e => exact returns_err e
  | panic => exact absurd rfl h

/-- The call does not panic, and has a value just where `p` has it. -/
structure Computes (o : Outcome ε α) (p : Option α) : Prop where
  returns : o.Returns
  value : o.toOption = p

theorem computes_ok (a : α) : (ok a : Outcome ε α).Computes (some a) := ⟨returns_ok a, rfl⟩

theorem computes_err (e : ε) : (err e : Outcome ε α).Computes none := ⟨returns_err e, rfl⟩

/-- Two sequences agree when their calls do. -/
theorem Computes.bind {o : Outcome ε α} {p : Option α} {f : α → Outcome ε β} {g : α → Option β}
    (h : o.Computes p) (hf : ∀ a, (f a).Computes (g a)) : (o >>= f).Computes (p >>= g) where
  returns := h.returns.bind fun a _ => (hf a).returns
  value := toOption_bind_eq h.value fun a => (hf a).value

theorem Computes.map {o : Outcome ε α} {p : Option α} {f : α → Outcome ε β} {g : α → β}
    (h : o.Computes p) (hf : ∀ a, f a = ok (g a)) : (o >>= f).Computes (p.map g) := by
  rw [Option.map_eq_bind]
  apply h.bind
  intro a
  rw [hf a]
  exact computes_ok _

/-- `&list[..n]`. -/
def sliceTo (l : List β) (n : Nat) : Outcome ε (List β) := if n ≤ l.length then ok (l.take n) else panic

/-- `&list[n..]`. -/
def sliceFrom (l : List β) (n : Nat) : Outcome ε (List β) :=
  if n ≤ l.length then ok (l.drop n) else panic

/-- `list.copy_within(start..end_, dest)`. -/
def copyWithin (l : List β) (start end_ dest : Nat) : Outcome ε (List β) :=
  if start ≤ end_ ∧ end_ ≤ l.length ∧ dest + (end_ - start) ≤ l.length then
    ok (l.take dest ++ (l.drop start).take (end_ - start) ++ l.drop (dest + (end_ - start)))
  else panic

/-- The conversion of a slice to an array, which panics on another length. -/
def fixed (n : Nat) (l : List β) : Outcome ε { l : List β // l.length = n } :=
  if h : l.length = n then ok ⟨l, h⟩ else panic

theorem sliceTo_of_le {l : List β} {n : Nat} (h : n ≤ l.length) :
    (sliceTo l n : Outcome ε (List β)) = ok (l.take n) :=
  if_pos h

theorem sliceFrom_of_le {l : List β} {n : Nat} (h : n ≤ l.length) :
    (sliceFrom l n : Outcome ε (List β)) = ok (l.drop n) :=
  if_pos h

/-- Moving a range to the front. -/
theorem copyWithin_front {l : List β} {start n : Nat} (h : start + n ≤ l.length) :
    (copyWithin l start (start + n) 0 : Outcome ε (List β)) =
      ok ((l.drop start).take n ++ l.drop n) := by
  rw [copyWithin, if_pos (by omega), Nat.add_sub_cancel_left, List.take_zero, List.nil_append,
    Nat.zero_add]

theorem fixed_of_eq {n : Nat} {l : List β} (h : l.length = n) :
    (fixed n l : Outcome ε { l : List β // l.length = n }) = ok ⟨l, h⟩ :=
  dif_pos h

end Outcome

end Mapache.Lib
