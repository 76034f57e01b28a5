import Mapache.Lib.Run
import Mathlib.Data.List.ReduceOption
import Mathlib.Logic.Function.Basic

/-!
# Loads through a shared cache

Tasks load the values of keys through one cache. Looking a key up and storing a value are locked
sections, one step each. The value is loaded between them, without the lock, so that other tasks may
look up and store anything in the meantime, the same key included.

`run_spec` is the rule: what holds of the cache at first and is kept by both sections holds in every
state, and every load returns a value that belongs to its key. A property of the cache may speak of
the keys of the loads that have returned, in order. A load that nobody interrupts is a run
(`exists_run_load`).
-/

set_option autoImplicit false

namespace Mapache.Lib.CachedLoad

universe u v w x

variable {ι : Type u} {σ : Type v} {κ : Type w} {α : Type x}

/-- The locked sections of a load. Storing gives the value that the load returns. -/
structure Sections (σ : Type v) (κ : Type w) (α : Type x) where
  lookup : σ → κ → Option (α × σ)
  store : σ → κ → α → α × σ

/-- A load from its beginning to its end, with no other task in between. -/
def Sections.load (sections : Sections σ κ α) (loader : κ → Option α) (c : σ) (k : κ) :
    Option α × σ :=
  match sections.lookup c k with
  | some (a, c') => (some a, c')
  | none =>
    match loader k with
    | none => (none, c)
    | some a => (some (sections.store c k a).1, (sections.store c k a).2)

/-- Where a task stands. -/
inductive Phase (κ : Type w) (α : Type x) where
  | idle
  | loading (k : κ)
  | loaded (k : κ) (a : α)

structure State (ι : Type u) (σ : Type v) (κ : Type w) (α : Type x) where
  cache : σ
  phase : ι → Phase κ α

/-- No task is in a load. -/
def State.start (c : σ) : State ι σ κ α := ⟨c, fun _ => .idle⟩

variable [DecidableEq ι]

/-- The task is in another phase, with this cache. -/
def State.set (s : State ι σ κ α) (i : ι) (phase : Phase κ α) (c : σ) : State ι σ κ α :=
  ⟨c, Function.update s.phase i phase⟩

/-- A step of one task. Its label is what a load returns, with its key. -/
inductive Step (sections : Sections σ κ α) (loads : κ → α → Prop) (s : State ι σ κ α) :
    Option (κ × α) → State ι σ κ α → Prop where
  | hit (i : ι) {k : κ} {a : α} {c : σ} : s.phase i = .idle →
      sections.lookup s.cache k = some (a, c) →
      Step sections loads s (some (k, a)) (s.set i .idle c)
  | miss (i : ι) {k : κ} : s.phase i = .idle → sections.lookup s.cache k = none →
      Step sections loads s none (s.set i (.loading k) s.cache)
  | load (i : ι) {k : κ} {a : α} : s.phase i = .loading k → loads k a →
      Step sections loads s none (s.set i (.loaded k a) s.cache)
  /-- The loader fails, or the task is dropped while it waits for it. -/
  | fail (i : ι) {k : κ} : s.phase i = .loading k →
      Step sections loads s none (s.set i .idle s.cache)
  | store (i : ι) {k : κ} {a : α} : s.phase i = .loaded k a →
      Step sections loads s (some (k, (sections.store s.cache k a).1))
        (s.set i .idle (sections.store s.cache k a).2)

variable {sections : Sections σ κ α} {loads : κ → α → Prop} {s t : State ι σ κ α}
  {ls : List (Option (κ × α))}

/-- The keys of the loads that have returned. -/
def keysOf (ls : List (Option (κ × α))) : List κ := ls.reduceOption.map Prod.fst

@[simp] theorem keysOf_none : keysOf (ls ++ [none]) = keysOf ls := by
  simp [keysOf, List.reduceOption_append]

@[simp] theorem keysOf_some (k : κ) (a : α) : keysOf (ls ++ [some (k, a)]) = keysOf ls ++ [k] := by
  simp [keysOf, List.reduceOption_append]

/-- What holds in every state: the cache is good after the loads so far, what they have returned and
what is loaded at present belongs to its key. -/
structure Good (good : List κ → σ → Prop) (loads : κ → α → Prop) (ls : List (Option (κ × α)))
    (s : State ι σ κ α) : Prop where
  cache : good (keysOf ls) s.cache
  returned : ∀ k a, some (k, a) ∈ ls → loads k a
  loaded : ∀ i k a, s.phase i = .loaded k a → loads k a

/-- A task that is set to a phase has loaded only what belongs to its key. -/
theorem loads_of_set {i j : ι} {phase : Phase κ α} {c : σ} {k : κ} {a : α}
    (h : ∀ i k a, s.phase i = .loaded k a → loads k a)
    (hphase : ∀ k a, phase = .loaded k a → loads k a)
    (hj : (s.set i phase c).phase j = .loaded k a) : loads k a := by
  rw [State.set] at hj
  dsimp only at hj
  rw [Function.update_apply] at hj
  split at hj
  · exact hphase k a hj
  · exact h j k a hj

variable {good : List κ → σ → Prop}

omit [DecidableEq ι] in
theorem good_start {c : σ} (hc : good [] c) :
    Good good loads [] (State.start c : State ι σ κ α) where
  cache := hc
  returned _ _ hmem := by cases hmem
  loaded _ _ _ hphase := by cases hphase

/-- **One step.** -/
theorem Good.step
    (hlookup : ∀ uses c k a c', good uses c → sections.lookup c k = some (a, c') →
      loads k a ∧ good (uses ++ [k]) c')
    (hstore : ∀ uses c k a, good uses c → loads k a →
      loads k (sections.store c k a).1 ∧ good (uses ++ [k]) (sections.store c k a).2)
    (h : Good good loads ls s) {l : Option (κ × α)} (hstep : Step sections loads s l t) :
    Good good loads (ls ++ [l]) t := by
  have hsilent : ∀ k a, some (k, a) ∈ ls ++ [none] → loads k a := fun k a hmem =>
    h.returned k a (by simpa using hmem)
  have hreturn : ∀ {k a}, loads k a →
      ∀ k' a', some (k', a') ∈ ls ++ [some (k, a)] → loads k' a' := by
    intro k a hloads k' a' hmem
    rcases List.mem_append.mp hmem with hmem | hmem
    · exact h.returned k' a' hmem
    · cases List.mem_singleton.mp hmem
      exact hloads
  cases hstep with
  | hit i hidle hhit =>
    obtain ⟨hloads, hgood⟩ := hlookup _ _ _ _ _ h.cache hhit
    refine ⟨?_, hreturn hloads, fun j k' a' => loads_of_set h.loaded nofun⟩
    rw [keysOf_some]
    exact hgood
  | miss i hidle hmiss =>
    refine ⟨?_, hsilent, fun j k' a' => loads_of_set h.loaded nofun⟩
    rw [keysOf_none]
    exact h.cache
  | load i hloading hloads =>
    refine ⟨?_, hsilent, fun j k' a' => loads_of_set h.loaded ?_⟩
    · rw [keysOf_none]
      exact h.cache
    · rintro _ _ ⟨⟩
      exact hloads
  | fail i hloading =>
    refine ⟨?_, hsilent, fun j k' a' => loads_of_set h.loaded nofun⟩
    rw [keysOf_none]
    exact h.cache
  | store i hloaded =>
    -- the cache may have changed since the lookup, but what was loaded belongs to the key
    obtain ⟨hloads, hgood⟩ := hstore _ _ _ _ h.cache (h.loaded i _ _ hloaded)
    refine ⟨?_, hreturn hloads, fun j k' a' => loads_of_set h.loaded nofun⟩
    rw [keysOf_some]
    exact hgood

/-- **Every run**: the cache is good, and what the loads have returned belongs to their keys. -/
theorem run_spec
    (hlookup : ∀ uses c k a c', good uses c → sections.lookup c k = some (a, c') →
      loads k a ∧ good (uses ++ [k]) c')
    (hstore : ∀ uses c k a, good uses c → loads k a →
      loads k (sections.store c k a).1 ∧ good (uses ++ [k]) (sections.store c k a).2)
    {c : σ} (hc : good [] c) (h : Run (Step sections loads) (State.start c) ls t) :
    Good good loads ls t := by
  induction h with
  | nil => exact good_start hc
  | snoc _ hstep ih => exact ih.step hlookup hstore hstep

/-- **A load with no other task in between** is a run that returns what the load returns. -/
theorem exists_run_load {loader : κ → Option α} {i : ι} (hidle : s.phase i = .idle) {k : κ} {a : α}
    {c : σ} (h : sections.load loader s.cache k = (some a, c)) :
    ∃ ls, Run (Step sections fun k a => loader k = some a) s ls (s.set i .idle c) ∧
      ls.reduceOption = [(k, a)] := by
  unfold Sections.load at h
  split at h
  · rename_i hhit
    cases h
    exact ⟨_, Run.nil.snoc (.hit i hidle hhit), rfl⟩
  · rename_i hmiss
    split at h
    · cases h
    · rename_i value hvalue
      cases h
      have hloading : (s.set i (.loading k) s.cache).phase i = .loading k := Function.update_self ..
      have hloaded : ((s.set i (.loading k) s.cache).set i (.loaded k value) s.cache).phase i =
          .loaded k value := Function.update_self ..
      have hload : Step sections (fun k a => loader k = some a) _ _ _ := .load i hloading hvalue
      have hrun := ((Run.nil.snoc (.miss i hidle hmiss)).snoc hload).snoc (.store i hloaded)
      refine ⟨[none, none, some (k, (sections.store s.cache k value).1)], ?_, rfl⟩
      have hset : s.set i .idle (sections.store s.cache k value).2 =
          ((s.set i (.loading k) s.cache).set i (.loaded k value) s.cache).set i .idle
            (sections.store s.cache k value).2 := by
        simp [State.set]
      rw [hset]
      exact hrun

end Mapache.Lib.CachedLoad
