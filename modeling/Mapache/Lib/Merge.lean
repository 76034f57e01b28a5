import Mathlib.Data.List.Basic
import Mathlib.Order.Defs.Unbundled

/-!
# Streams and merging

A stream is a function that gives the next item and the state after it, and `Yields` says which
items come out until it ends. `mergeJoin` merges two lists with increasing keys, as in an outer
join: each key comes once, with the values that the two lists have for it.

The keys of the result increase (`pairwise_mergeJoin`), and it has exactly the entries that it
should have (`mem_mergeJoin`).
-/

set_option autoImplicit false

namespace Mapache.Lib

universe u v w

/-! ## Streams -/

/-- The items of a stream until it ends. -/
inductive Yields {σ : Type u} {α : Type v} (next : σ → Option (α × σ)) : σ → List α → Prop where
  | done {s : σ} : next s = none → Yields next s []
  | item {s s' : σ} {a : α} {items : List α} : next s = some (a, s') → Yields next s' items →
      Yields next s (a :: items)

/-- A stream yields one list of items. -/
theorem Yields.unique {σ : Type u} {α : Type v} {next : σ → Option (α × σ)} {s : σ}
    {items items' : List α}
    (h : Yields next s items) (h' : Yields next s items') : items = items' := by
  induction h generalizing items' with
  | done hend =>
    cases h' with
    | done => rfl
    | item hnext => simp [hend] at hnext
  | item hnext hrest ih =>
    cases h' with
    | done hend => simp [hend] at hnext
    | item hnext' hrest' =>
      rw [hnext] at hnext'
      cases hnext'
      rw [ih hrest']

/-! ## Merging -/

section Merge

variable {κ : Type u} {α : Type v} {β : Type w} (lt : κ → κ → Prop) [DecidableRel lt]

/-- The outer join of two lists with increasing keys. -/
def mergeJoin : List (κ × α) → List (κ × β) → List (κ × Option α × Option β)
  | [], [] => []
  | p :: ps, [] => (p.1, some p.2, none) :: mergeJoin ps []
  | [], n :: ns => (n.1, none, some n.2) :: mergeJoin [] ns
  | p :: ps, n :: ns =>
    if lt p.1 n.1 then (p.1, some p.2, none) :: mergeJoin ps (n :: ns)
    else if lt n.1 p.1 then (n.1, none, some n.2) :: mergeJoin (p :: ps) ns
    else (p.1, some p.2, some n.2) :: mergeJoin ps ns
termination_by ps ns => ps.length + ns.length

/-- What the two lists have for a key that one of them has. -/
structure Joined (ps : List (κ × α)) (ns : List (κ × β)) (x : κ × Option α × Option β) : Prop where
  left : ∀ a, x.2.1 = some a ↔ (x.1, a) ∈ ps
  right : ∀ b, x.2.2 = some b ↔ (x.1, b) ∈ ns
  some : x.2.1.isSome = true ∨ x.2.2.isSome = true

variable {lt} {ps : List (κ × α)} {ns : List (κ × β)} {x : κ × Option α × Option β} {k : κ} {a : α}
  {b : β}

/-- The keys of a joined list come from the two lists. -/
theorem exists_of_joined (h : Joined ps ns x) : (∃ a, (x.1, a) ∈ ps) ∨ ∃ b, (x.1, b) ∈ ns := by
  rcases h.some with hsome | hsome
  · obtain ⟨a, ha⟩ := Option.isSome_iff_exists.mp hsome
    exact Or.inl ⟨a, (h.left a).mp ha⟩
  · obtain ⟨b, hb⟩ := Option.isSome_iff_exists.mp hsome
    exact Or.inr ⟨b, (h.right b).mp hb⟩

/-- The entries of a list under a key. -/
theorem mem_toList_append {oa : Option α} {key : κ} {c : α} :
    (key, c) ∈ (oa.toList.map fun a => (k, a)) ++ ps ↔ (key = k ∧ oa = some c) ∨ (key, c) ∈ ps := by
  cases oa with
  | none => simp
  | some a => simp [eq_comm]

/-- **A key below all others is joined first**, with the values that it has. -/
theorem joined_head (oa : Option α) (ob : Option β) (hsome : oa.isSome = true ∨ ob.isSome = true)
    (hps : ∀ q ∈ ps, q.1 ≠ k) (hns : ∀ q ∈ ns, q.1 ≠ k) :
    Joined ((oa.toList.map fun a => (k, a)) ++ ps) ((ob.toList.map fun b => (k, b)) ++ ns) x ↔
      x = (k, oa, ob) ∨ Joined ps ns x := by
  constructor
  · intro h
    by_cases hkey : x.1 = k
    · left
      have hleft : x.2.1 = oa := by
        ext c
        rw [h.left c, mem_toList_append, or_iff_left fun hmem => hps _ hmem hkey, and_iff_right hkey]
      have hright : x.2.2 = ob := by
        ext c
        rw [h.right c, mem_toList_append, or_iff_left fun hmem => hns _ hmem hkey, and_iff_right hkey]
      rw [← hkey, ← hleft, ← hright]
    · right
      refine ⟨fun c => ?_, fun c => ?_, h.some⟩
      · rw [h.left c, mem_toList_append, or_iff_right fun heq => hkey heq.1]
      · rw [h.right c, mem_toList_append, or_iff_right fun heq => hkey heq.1]
  · rintro (rfl | h)
    · refine ⟨fun c => ?_, fun c => ?_, hsome⟩
      · rw [mem_toList_append, or_iff_left fun hmem => hps _ hmem rfl, and_iff_right rfl]
      · rw [mem_toList_append, or_iff_left fun hmem => hns _ hmem rfl, and_iff_right rfl]
    · -- the key of the entry is one of the others
      have hkey : x.1 ≠ k := by
        rcases exists_of_joined h with ⟨a, ha⟩ | ⟨b, hb⟩
        · exact hps _ ha
        · exact hns _ hb
      refine ⟨fun c => ?_, fun c => ?_, h.some⟩
      · rw [h.left c, mem_toList_append, or_iff_right fun heq => hkey heq.1]
      · rw [h.right c, mem_toList_append, or_iff_right fun heq => hkey heq.1]

section Order

omit [DecidableRel lt]

variable [IsStrictTotalOrder κ lt] {γ : Type*} {qs : List (κ × γ)} {q : κ × γ}

theorem eq_of_not_lt {k k' : κ} (hlt : ¬ lt k k') (hgt : ¬ lt k' k) : k = k' := by
  rcases trichotomous_of lt k k' with h | h | h
  · exact absurd h hlt
  · exact h
  · exact absurd h hgt

theorem ne_of_forall_lt (h : ∀ q ∈ qs, lt k q.1) : ∀ q ∈ qs, q.1 ≠ k := by
  intro q hq heq
  have hlt := h q hq
  rw [heq] at hlt
  exact irrefl k hlt

/-- The keys of an increasing list whose first key is greater. -/
theorem forall_lt_cons (hsorted : (q :: qs).Pairwise fun x y => lt x.1 y.1) (hlt : lt k q.1) :
    ∀ r ∈ q :: qs, lt k r.1 := by
  intro r hr
  rcases List.mem_cons.mp hr with rfl | hr
  · exact hlt
  · exact IsTrans.trans _ _ _ hlt ((List.pairwise_cons.mp hsorted).1 r hr)

/-- In an increasing list a key has one value. -/
theorem eq_of_mem_of_pairwise
    (hsorted : qs.Pairwise fun x y => lt x.1 y.1) {c d : γ} (hc : (k, c) ∈ qs)
    (hd : (k, d) ∈ qs) : c = d := by
  induction qs with
  | nil => cases hc
  | cons q qs ih =>
    obtain ⟨hfirst, hrest⟩ := List.pairwise_cons.mp hsorted
    rcases List.mem_cons.mp hc with rfl | hc
    · rcases List.mem_cons.mp hd with heq | hd
      · cases heq
        rfl
      · have hlt : lt k k := hfirst (k, d) hd
        exact absurd hlt (irrefl k)
    · rcases List.mem_cons.mp hd with heq | hd
      · rw [← heq] at hfirst
        have hlt : lt k k := hfirst (k, c) hc
        exact absurd hlt (irrefl k)
      · exact ih hrest hc hd

/-- What an increasing list has for a key. -/
theorem exists_value (hsorted : qs.Pairwise fun x y => lt x.1 y.1) (k : κ) :
    ∃ value : Option γ, ∀ c, value = some c ↔ (k, c) ∈ qs := by
  by_cases h : ∃ c, (k, c) ∈ qs
  · obtain ⟨c, hc⟩ := h
    refine ⟨some c, fun d => ⟨?_, fun hd => ?_⟩⟩
    · rintro ⟨rfl⟩
      exact hc
    · rw [eq_of_mem_of_pairwise hsorted hc hd]
  · refine ⟨none, fun c => ⟨fun hnone => (by cases hnone), fun hc => absurd ⟨c, hc⟩ h⟩⟩

/-- A key of one of the lists is joined. -/
theorem exists_joined (hps : ps.Pairwise fun x y => lt x.1 y.1) (hns : ns.Pairwise fun x y =>
    lt x.1 y.1)
    (h : (∃ a, (k, a) ∈ ps) ∨ ∃ b, (k, b) ∈ ns) : ∃ x, x.1 = k ∧ Joined ps ns x := by
  obtain ⟨oa, hoa⟩ := exists_value hps k
  obtain ⟨ob, hob⟩ := exists_value hns k
  refine ⟨(k, oa, ob), rfl, hoa, hob, ?_⟩
  rcases h with ⟨a, ha⟩ | ⟨b, hb⟩
  · exact Or.inl (by rw [(hoa a).mpr ha]; rfl)
  · exact Or.inr (by rw [(hob b).mpr hb]; rfl)

end Order

variable [IsStrictTotalOrder κ lt]

/-- **The join has the entries it should have.** -/
theorem mem_mergeJoin (hps : ps.Pairwise fun x y => lt x.1 y.1) (hns : ns.Pairwise fun x y =>
    lt x.1 y.1) :
    x ∈ mergeJoin lt ps ns ↔ Joined ps ns x := by
  induction ps, ns using mergeJoin.induct lt with
  | case1 =>
    rw [mergeJoin]
    refine ⟨fun h => (by cases h), fun h => ?_⟩
    rcases exists_of_joined h with ⟨a, ha⟩ | ⟨b, hb⟩
    · cases ha
    · cases hb
  | case2 p ps ih =>
    obtain ⟨hfirst, hrest⟩ := List.pairwise_cons.mp hps
    rw [mergeJoin, List.mem_cons, ih hrest hns]
    exact (joined_head (some p.2) none (Or.inl rfl) (ne_of_forall_lt hfirst)
      fun q hq => by cases hq).symm
  | case3 n ns ih =>
    obtain ⟨hfirst, hrest⟩ := List.pairwise_cons.mp hns
    rw [mergeJoin, List.mem_cons, ih hps hrest]
    exact (joined_head none (some n.2) (Or.inr rfl) (fun q hq => by cases hq)
      (ne_of_forall_lt hfirst)).symm
  | case4 p ps n ns hlt ih =>
    obtain ⟨hfirst, hrest⟩ := List.pairwise_cons.mp hps
    rw [mergeJoin, if_pos hlt, List.mem_cons, ih hrest hns]
    exact (joined_head (some p.2) none (Or.inl rfl) (ne_of_forall_lt hfirst)
      (ne_of_forall_lt (forall_lt_cons hns hlt))).symm
  | case5 p ps n ns hlt hgt ih =>
    obtain ⟨hfirst, hrest⟩ := List.pairwise_cons.mp hns
    rw [mergeJoin, if_neg hlt, if_pos hgt, List.mem_cons, ih hps hrest]
    exact (joined_head none (some n.2) (Or.inr rfl) (ne_of_forall_lt (forall_lt_cons hps hgt))
      (ne_of_forall_lt hfirst)).symm
  | case6 p ps n ns hlt hgt ih =>
    obtain ⟨hpfirst, hprest⟩ := List.pairwise_cons.mp hps
    obtain ⟨hnfirst, hnrest⟩ := List.pairwise_cons.mp hns
    have hkey : p.1 = n.1 := eq_of_not_lt hlt hgt
    rw [← hkey] at hnfirst
    rw [mergeJoin, if_neg hlt, if_neg hgt, List.mem_cons, ih hprest hnrest]
    have hn : n = (p.1, n.2) := by rw [hkey]
    rw [hn]
    exact (joined_head (some p.2) (some n.2) (Or.inl rfl) (ne_of_forall_lt hpfirst)
      (ne_of_forall_lt hnfirst)).symm

/-- Keys below both lists are below the join. -/
theorem forall_lt_mergeJoin (hps : ps.Pairwise fun x y => lt x.1 y.1)
    (hns : ns.Pairwise fun x y => lt x.1 y.1) (hkp : ∀ q ∈ ps, lt k q.1) (hkn : ∀ q ∈ ns, lt k q.1) :
    ∀ x ∈ mergeJoin lt ps ns, lt k x.1 := by
  intro x hx
  rcases exists_of_joined ((mem_mergeJoin hps hns).mp hx) with ⟨a, ha⟩ | ⟨b, hb⟩
  · exact hkp _ ha
  · exact hkn _ hb

/-- **The keys of the join increase.** -/
theorem pairwise_mergeJoin (hps : ps.Pairwise fun x y => lt x.1 y.1)
    (hns : ns.Pairwise fun x y => lt x.1 y.1) :
    (mergeJoin lt ps ns).Pairwise fun x y => lt x.1 y.1 := by
  induction ps, ns using mergeJoin.induct lt with
  | case1 =>
    rw [mergeJoin]
    exact List.Pairwise.nil
  | case2 p ps ih =>
    obtain ⟨hfirst, hrest⟩ := List.pairwise_cons.mp hps
    rw [mergeJoin]
    exact List.pairwise_cons.mpr ⟨forall_lt_mergeJoin hrest hns hfirst fun q hq => (by cases hq),
      ih hrest hns⟩
  | case3 n ns ih =>
    obtain ⟨hfirst, hrest⟩ := List.pairwise_cons.mp hns
    rw [mergeJoin]
    exact List.pairwise_cons.mpr ⟨forall_lt_mergeJoin hps hrest (fun q hq => by cases hq) hfirst,
      ih hps hrest⟩
  | case4 p ps n ns hlt ih =>
    obtain ⟨hfirst, hrest⟩ := List.pairwise_cons.mp hps
    rw [mergeJoin, if_pos hlt]
    exact List.pairwise_cons.mpr ⟨forall_lt_mergeJoin hrest hns hfirst (forall_lt_cons hns hlt),
      ih hrest hns⟩
  | case5 p ps n ns hlt hgt ih =>
    obtain ⟨hfirst, hrest⟩ := List.pairwise_cons.mp hns
    rw [mergeJoin, if_neg hlt, if_pos hgt]
    exact List.pairwise_cons.mpr ⟨forall_lt_mergeJoin hps hrest (forall_lt_cons hps hgt) hfirst,
      ih hps hrest⟩
  | case6 p ps n ns hlt hgt ih =>
    obtain ⟨hpfirst, hprest⟩ := List.pairwise_cons.mp hps
    obtain ⟨hnfirst, hnrest⟩ := List.pairwise_cons.mp hns
    have hkey : p.1 = n.1 := eq_of_not_lt hlt hgt
    rw [← hkey] at hnfirst
    rw [mergeJoin, if_neg hlt, if_neg hgt]
    exact List.pairwise_cons.mpr ⟨forall_lt_mergeJoin hprest hnrest hpfirst hnfirst,
      ih hprest hnrest⟩

end Merge

end Mapache.Lib
