import Mapache.Fs.AbsolutePath

/-!
# Joining a path below a base

`secure_join` of `utils/mod.rs`, which places what a restore writes. A path that is accepted is
absolute and normalized and has the normalized base above it, and names alone are always accepted
(`secureJoin_inside`).
-/

set_option autoImplicit false

namespace Mapache.PathBuf

open Lib

/-- `secure_join`. -/
def secureJoin (env : PathEnv) (base relative : Bytes) : Except MapacheError Bytes :=
  if isAbsolute relative then
    .error (.config s!"Relative path cannot be absolute: {toStringLossy relative}")
  else do
    let joined := push base relative
    let normalized ← getAbsoluteNormalizedPath env joined
    let normalizedBase ← getAbsoluteNormalizedPath env base
    if components normalizedBase <+: components normalized then
      .ok normalized
    else
      .error (.integrity (s!"Path traversal detected: {toStringLossy normalized} is outside of " ++
        toStringLossy normalizedBase))

section Join

variable {env : PathEnv} {base relative result : Bytes}

/-- Components that are all names are those that are pushed. -/
theorem laterComponents_of_normal (h : ∀ c ∈ components relative, ∃ name, c = .normal name) :
    isAbsolute relative = false ∧ laterComponents relative = components relative := by
  unfold components at h ⊢
  split at h
  · obtain ⟨name, hname⟩ := h _ List.mem_cons_self
    cases hname
  · rename_i habs
    rw [if_neg habs]
    split at h
    · obtain ⟨name, hname⟩ := h _ List.mem_cons_self
      cases hname
    · rename_i hdot
      exact ⟨Bool.not_eq_true _ ▸ habs, (if_neg hdot).symm⟩

/-- When the path is accepted. -/
theorem secureJoin_eq_ok_iff : secureJoin env base relative = .ok result ↔
    isAbsolute relative = false ∧ getAbsoluteNormalizedPath env (push base relative) = .ok result ∧
      ∃ normalizedBase, getAbsoluteNormalizedPath env base = .ok normalizedBase ∧
        components normalizedBase <+: components result := by
  simp only [secureJoin, bind, Except.bind]
  cases isAbsolute relative with
  | true => simp
  | false =>
    cases getAbsoluteNormalizedPath env (push base relative) with
    | error e => simp
    | ok normalized =>
      cases getAbsoluteNormalizedPath env base with
      | error e => simp
      | ok normalizedBase =>
        by_cases hpre : components normalizedBase <+: components normalized
        · simp only [hpre, Bool.false_eq_true, if_true, if_false, Except.ok.injEq]
          constructor
          · rintro rfl
            exact ⟨trivial, rfl, _, rfl, hpre⟩
          · rintro ⟨-, rfl, -⟩
            rfl
        · simp only [hpre, Bool.false_eq_true, if_false, Except.ok.injEq]
          constructor
          · rintro ⟨⟩
          · rintro ⟨-, rfl, _, rfl, hpre'⟩
            exact absurd hpre' hpre

/-- **Names below an absolute base** are always accepted. -/
theorem secureJoin_of_names (env : PathEnv) (hbase : isAbsolute base = true)
    (hrelative : ∀ c ∈ components relative, ∃ name, c = .normal name) :
    ∃ result, secureJoin env base relative = .ok result ∧
      components result = components (normalizeLexically base) ++ components relative := by
  obtain ⟨hrel, hlater⟩ := laterComponents_of_normal hrelative
  have hne : base ≠ [] := by
    rintro rfl
    cases hbase
  have hpush : isAbsolute (push base relative) = true := by
    rw [isAbsolute_push hne hrel]
    exact hbase
  have hcomponents : components (normalizeLexically (push base relative)) =
      components (normalizeLexically base) ++ components relative := by
    rw [(normalizeLexically_of_isAbsolute hpush).2, (normalizeLexically_of_isAbsolute hbase).2,
      components_push hne hrel, List.foldl_append, hlater, foldl_resolve_normal hrelative]
  refine ⟨normalizeLexically (push base relative), ?_, hcomponents⟩
  refine secureJoin_eq_ok_iff.mpr ⟨hrel, getAbsoluteNormalizedPath_of_isAbsolute hpush, _,
    getAbsoluteNormalizedPath_of_isAbsolute hbase, ?_⟩
  rw [hcomponents]
  exact List.prefix_append _ _

/-- **`secure_join` never leaves its base.** What it returns is absolute and normalized, with the
normalized base above it; and names below an absolute base are always accepted. -/
theorem secureJoin_inside (env : PathEnv) (base relative : Bytes) :
    (∀ result, secureJoin env base relative = .ok result → NormalizedPath result ∧
      ∃ normalizedBase, getAbsoluteNormalizedPath env base = .ok normalizedBase ∧
        NormalizedPath normalizedBase ∧ components normalizedBase <+: components result) ∧
    (isAbsolute base = true → (∀ c ∈ components relative, ∃ name, c = .normal name) →
      ∃ normalizedBase result, getAbsoluteNormalizedPath env base = .ok normalizedBase ∧
        secureJoin env base relative = .ok result ∧
        components result = components normalizedBase ++ components relative) := by
  constructor
  · intro result h
    obtain ⟨-, hresult, normalizedBase, hbase, hpre⟩ := secureJoin_eq_ok_iff.mp h
    exact ⟨getAbsoluteNormalizedPath_spec hresult, normalizedBase, hbase,
      getAbsoluteNormalizedPath_spec hbase, hpre⟩
  · intro hbase hrelative
    obtain ⟨result, hresult, hcomponents⟩ := secureJoin_of_names env hbase hrelative
    exact ⟨_, result, getAbsoluteNormalizedPath_of_isAbsolute hbase, hresult, hcomponents⟩

/-- `/a` and `b/c`. -/
theorem secureJoin_inside_names : ∃ normalizedBase result,
    getAbsoluteNormalizedPath ⟨none, .error (.io "")⟩ [0x2f, 0x61] = .ok normalizedBase ∧
      secureJoin ⟨none, .error (.io "")⟩ [0x2f, 0x61] [0x62, 0x2f, 0x63] = .ok result ∧
      components result = components normalizedBase ++ [.normal [0x62], .normal [0x63]] := by
  have hnames : components [0x62, 0x2f, 0x63] = [.normal [0x62], .normal [0x63]] := by decide
  obtain ⟨normalizedBase, result, hbase, hresult, hcomponents⟩ :=
    (secureJoin_inside ⟨none, .error (.io "")⟩ [0x2f, 0x61] [0x62, 0x2f, 0x63]).2 (by decide) (by
      rw [hnames]
      simp)
  rw [hnames] at hcomponents
  exact ⟨normalizedBase, result, hbase, hresult, hcomponents⟩

-- `/a` and `b/../c`, and `/a` and `..`
example : secureJoin ⟨none, .error (.io "")⟩ [0x2f, 0x61] [0x62, 0x2f, 0x2e, 0x2e, 0x2f, 0x63] =
    .ok [0x2f, 0x61, 0x2f, 0x63] := by decide

example : secureJoin ⟨none, .error (.io "")⟩ [0x2f, 0x61] [0x2e, 0x2e] =
    .error (.integrity "Path traversal detected: / is outside of /a") := by decide

end Join

end Mapache.PathBuf
