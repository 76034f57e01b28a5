import Mathlib.Logic.Function.Basic

/-!
# One agent at work and the others waiting

Agents want something done for a key. One that finds the key free enters and marks it as taken; one
that finds it taken registers for a notification and looks again once it is notified. The agent at
work frees the key and then notifies everybody who has registered, whatever the key.

Looking and registering are two steps, and a notification between them is lost. `Inv` is what every
step keeps: a taken key has exactly one agent at work. `Served` is kept by every step but a
notification in that gap: an agent that waits has another one that is still to notify it.
-/

set_option autoImplicit false

namespace Mapache.Lib.SingleFlight

universe u v

variable {ι : Type u} {κ : Type v}

/-- Where an agent stands. -/
inductive Role (κ : Type v) where
  | out
  /-- It has found the key taken and has not registered yet. -/
  | looked (k : κ)
  | waiting (k : κ)
  | working (k : κ)
  /-- The key is free again, and the notification is still to be sent. -/
  | leaving (k : κ)

/-- A notification. -/
def Role.wake : Role κ → Role κ
  | .waiting _ => .out
  | role => role

/-- The agents and the keys that are marked as taken. -/
structure State (ι : Type u) (κ : Type v) where
  role : ι → Role κ
  taken : κ → Prop

/-- The agent is still to notify those who wait for the key. -/
def State.Owes (s : State ι κ) (t : ι) (k : κ) : Prop :=
  s.role t = .working k ∨ s.role t = .leaving k

/-- A step of one agent. Its label is the key for which it notifies. -/
inductive Step [DecidableEq ι] (s s' : State ι κ) : Option κ → Prop where
  | stay : s'.role = s.role → (∀ k, s'.taken k ↔ s.taken k) → Step s s' none
  | look (t : ι) (k : κ) : s.role t = .out → s.taken k →
      s'.role = Function.update s.role t (.looked k) → (∀ k', s'.taken k' ↔ s.taken k') →
      Step s s' none
  | register (t : ι) (k : κ) : s.role t = .looked k →
      s'.role = Function.update s.role t (.waiting k) → (∀ k', s'.taken k' ↔ s.taken k') →
      Step s s' none
  | enter (t : ι) (k : κ) : s.role t = .out → ¬ s.taken k →
      s'.role = Function.update s.role t (.working k) →
      (∀ k', s'.taken k' ↔ k' = k ∨ s.taken k') → Step s s' none
  | release (t : ι) (k : κ) : s.role t = .working k →
      s'.role = Function.update s.role t (.leaving k) →
      (∀ k', s'.taken k' ↔ k' ≠ k ∧ s.taken k') → Step s s' none
  | notify (t : ι) (k : κ) : s.role t = .leaving k →
      s'.role = Function.update (fun u => (s.role u).wake) t .out →
      (∀ k', s'.taken k' ↔ s.taken k') → Step s s' (some k)
  | releaseAndNotify (t : ι) (k : κ) : s.role t = .working k →
      s'.role = Function.update (fun u => (s.role u).wake) t .out →
      (∀ k', s'.taken k' ↔ k' ≠ k ∧ s.taken k') → Step s s' (some k)

/-- No notification for a key while an agent that has found it taken has not registered. -/
def Heard (s : State ι κ) (l : Option κ) : Prop :=
  ∀ k, l = some k → ∀ t, s.role t ≠ .looked k

/-- A key is taken when an agent is at work for it, and there is only one. -/
structure Inv (s : State ι κ) : Prop where
  working : ∀ t k, s.role t = .working k → s.taken k
  taken : ∀ k, s.taken k → ∃ t, s.role t = .working k
  alone : ∀ t t' k, s.role t = .working k → s.role t' = .working k → t = t'

/-- Whoever has found a key taken is still to be notified. -/
def Served (s : State ι κ) : Prop :=
  ∀ t k, s.role t = .looked k ∨ s.role t = .waiting k → ∃ t', s.Owes t' k

section Wake

variable {role : Role κ} {k : κ}

theorem wake_eq_working : role.wake = .working k ↔ role = .working k := by
  cases role <;> simp [Role.wake]

theorem wake_eq_leaving : role.wake = .leaving k ↔ role = .leaving k := by
  cases role <;> simp [Role.wake]

theorem wake_eq_looked : role.wake = .looked k ↔ role = .looked k := by
  cases role <;> simp [Role.wake]

theorem wake_ne_waiting : role.wake ≠ .waiting k := by
  cases role <;> simp [Role.wake]

end Wake

section Moves

variable [DecidableEq ι] {s s' : State ι κ} {roles : ι → Role κ} {t u : ι} {role r : Role κ}

/-- Where an agent stands after one of them has moved. -/
theorem update_cases (hs' : s'.role = Function.update roles t role) (hu : s'.role u = r) :
    (u = t ∧ role = r) ∨ (u ≠ t ∧ roles u = r) := by
  by_cases heq : u = t
  · rw [hs', heq, Function.update_self] at hu
    exact Or.inl ⟨heq, hu⟩
  · rw [hs', Function.update_of_ne heq] at hu
    exact Or.inr ⟨heq, hu⟩

theorem update_self' (hs' : s'.role = Function.update roles t role) : s'.role t = role := by
  rw [hs', Function.update_self]

theorem update_other (hs' : s'.role = Function.update roles t role) (hne : u ≠ t) :
    s'.role u = roles u := by
  rw [hs', Function.update_of_ne hne]

end Moves

section Steps

variable [DecidableEq ι] {s s' : State ι κ} {l : Option κ}

/-- **One agent at work for a taken key, after every step.** -/
theorem Inv.step (h : Inv s) (hstep : Step s s' l) : Inv s' := by
  -- a move of an agent that is not at work, before or after
  have hidle : ∀ t role roles, s'.role = Function.update roles t role →
      (∀ u k, u ≠ t → (roles u = .working k ↔ s.role u = .working k)) →
      (∀ k, s.role t ≠ .working k) → (∀ k, role ≠ .working k) →
      (∀ k, s'.taken k ↔ s.taken k) → Inv s' := by
    intro t role roles hs' hroles ht hrole htaken
    have hback : ∀ u k, s'.role u = .working k → s.role u = .working k := by
      intro u k hu
      rcases update_cases hs' hu with ⟨-, hr⟩ | ⟨hne, hr⟩
      · exact absurd hr (hrole k)
      · exact (hroles u k hne).mp hr
    refine ⟨fun u k hu => (htaken k).mpr (h.working u k (hback u k hu)), fun k hk => ?_,
      fun u u' k hu hu' => h.alone u u' k (hback u k hu) (hback u' k hu')⟩
    obtain ⟨u, hu⟩ := h.taken k ((htaken k).mp hk)
    have hne : u ≠ t := by
      rintro rfl
      exact ht k hu
    exact ⟨u, (update_other hs' hne).trans ((hroles u k hne).mpr hu)⟩
  -- the agent at work leaves
  have hleave : ∀ t k role roles, s.role t = .working k → s'.role = Function.update roles t role →
      (∀ u k, u ≠ t → (roles u = .working k ↔ s.role u = .working k)) →
      (∀ k, role ≠ .working k) → (∀ k', s'.taken k' ↔ k' ≠ k ∧ s.taken k') → Inv s' := by
    intro t k role roles ht hs' hroles hrole htaken
    have hback : ∀ u k', s'.role u = .working k' → u ≠ t ∧ s.role u = .working k' := by
      intro u k' hu
      rcases update_cases hs' hu with ⟨-, hr⟩ | ⟨hne, hr⟩
      · exact absurd hr (hrole k')
      · exact ⟨hne, (hroles u k' hne).mp hr⟩
    refine ⟨fun u k' hu => ?_, fun k' hk' => ?_,
      fun u u' k' hu hu' => h.alone u u' k' (hback u k' hu).2 (hback u' k' hu').2⟩
    · obtain ⟨hne, hold⟩ := hback u k' hu
      refine (htaken k').mpr ⟨?_, h.working u k' hold⟩
      rintro rfl
      exact hne (h.alone u t k' hold ht)
    · obtain ⟨hne, hold⟩ := (htaken k').mp hk'
      obtain ⟨u, hu⟩ := h.taken k' hold
      have hut : u ≠ t := by
        rintro rfl
        rw [ht] at hu
        cases hu
        exact hne rfl
      exact ⟨u, (update_other hs' hut).trans ((hroles u k' hut).mpr hu)⟩
  cases hstep with
  | stay hrole htaken =>
    refine ⟨fun t k ht => (htaken k).mpr (h.working t k (hrole ▸ ht)), fun k hk => ?_, ?_⟩
    · rw [hrole]
      exact h.taken k ((htaken k).mp hk)
    · rw [hrole]
      exact h.alone
  | look t k ht _ hrole htaken =>
    exact hidle t _ s.role hrole (fun _ _ _ => Iff.rfl) (fun k' hk' => by rw [ht] at hk'; cases hk')
      (fun _ => by simp) htaken
  | register t k ht hrole htaken =>
    exact hidle t _ s.role hrole (fun _ _ _ => Iff.rfl) (fun k' hk' => by rw [ht] at hk'; cases hk')
      (fun _ => by simp) htaken
  | enter t k ht hfree hrole htaken =>
    have hcases : ∀ u k', s'.role u = .working k' →
        (u = t ∧ k' = k) ∨ (u ≠ t ∧ s.role u = .working k') := by
      intro u k' hu
      rcases update_cases hrole hu with ⟨hut, hr⟩ | hold
      · cases hr
        exact Or.inl ⟨hut, rfl⟩
      · exact Or.inr hold
    refine ⟨fun u k' hu => ?_, fun k' hk' => ?_, fun u u' k' hu hu' => ?_⟩
    · rcases hcases u k' hu with ⟨-, rfl⟩ | ⟨-, hold⟩
      · exact (htaken k').mpr (Or.inl rfl)
      · exact (htaken k').mpr (Or.inr (h.working u k' hold))
    · rcases (htaken k').mp hk' with rfl | hold
      · exact ⟨t, update_self' hrole⟩
      · obtain ⟨u, hu⟩ := h.taken k' hold
        have hut : u ≠ t := by
          rintro rfl
          rw [ht] at hu
          cases hu
        exact ⟨u, (update_other hrole hut).trans hu⟩
    · rcases hcases u k' hu with ⟨rfl, rfl⟩ | ⟨-, hold⟩
      · rcases hcases u' k' hu' with ⟨rfl, -⟩ | ⟨-, hold'⟩
        · rfl
        · exact absurd (h.working u' k' hold') hfree
      · rcases hcases u' k' hu' with ⟨rfl, rfl⟩ | ⟨-, hold'⟩
        · exact absurd (h.working u k' hold) hfree
        · exact h.alone u u' k' hold hold'
  | release t k ht hrole htaken =>
    exact hleave t k _ s.role ht hrole (fun _ _ _ => Iff.rfl) (fun _ => by simp) htaken
  | notify t k ht hrole htaken =>
    exact hidle t _ _ hrole (fun _ _ _ => wake_eq_working)
      (fun k' hk' => by rw [ht] at hk'; cases hk') (fun _ => by simp) htaken
  | releaseAndNotify t k ht hrole htaken =>
    exact hleave t k _ _ ht hrole (fun _ _ _ => wake_eq_working) (fun _ => by simp) htaken

/-- **Whoever waits is still to be notified, after every step but a lost notification.** -/
theorem Served.step (h : Served s) (hinv : Inv s) (hstep : Step s s' l) (hheard : Heard s l) :
    Served s' := by
  -- who owes a notification goes on owing it
  have howes : ∀ t role k u, s'.role = Function.update s.role t role → s.Owes u k →
      (s.Owes t k → role = .working k ∨ role = .leaving k) → ∃ t', s'.Owes t' k := by
    intro t role k u hs' hu ht
    by_cases hut : u = t
    · refine ⟨t, ?_⟩
      rw [State.Owes, update_self' hs']
      exact ht (hut ▸ hu)
    · refine ⟨u, ?_⟩
      rw [State.Owes, update_other hs' hut]
      exact hu
  have hstays : ∀ t role, s'.role = Function.update s.role t role →
      (∀ k, role = .looked k ∨ role = .waiting k → ∃ t', s.Owes t' k) →
      (∀ k, s.Owes t k → role = .working k ∨ role = .leaving k) → Served s' := by
    intro t role hs' hrole ht u k hu
    have hold : ∃ t', s.Owes t' k := by
      rcases hu with hu | hu
      · rcases update_cases hs' hu with ⟨-, hr⟩ | ⟨-, hr⟩
        · exact hrole k (Or.inl hr)
        · exact h u k (Or.inl hr)
      · rcases update_cases hs' hu with ⟨-, hr⟩ | ⟨-, hr⟩
        · exact hrole k (Or.inr hr)
        · exact h u k (Or.inr hr)
    obtain ⟨t', ht'⟩ := hold
    exact howes t role k t' hs' ht' (ht k)
  -- after a notification for `k` only those wait that have looked at another key
  have hnotify : ∀ t k, (∀ u, s.role u ≠ .looked k) → (s.Owes t k) →
      s'.role = Function.update (fun u => (s.role u).wake) t .out → Served s' := by
    intro t k hlooked ht hs' u k' hu
    rcases hu with hu | hu
    · rcases update_cases hs' hu with ⟨-, hr⟩ | ⟨-, hr⟩
      · cases hr
      · have hold := wake_eq_looked.mp hr
        have hne : k' ≠ k := by
          rintro rfl
          exact hlooked u hold
        obtain ⟨t', ht'⟩ := h u k' (Or.inl hold)
        have htt : t' ≠ t := by
          rintro rfl
          rcases ht with ht | ht <;> rcases ht' with ht' | ht' <;> rw [ht] at ht' <;> cases ht'
          · exact hne rfl
          · exact hne rfl
        refine ⟨t', ?_⟩
        rw [State.Owes, update_other hs' htt]
        exact ht'.imp wake_eq_working.mpr wake_eq_leaving.mpr
    · rcases update_cases hs' hu with ⟨-, hr⟩ | ⟨-, hr⟩
      · cases hr
      · exact absurd hr wake_ne_waiting
  cases hstep with
  | stay hrole _ =>
    intro t k ht
    rw [hrole] at ht
    obtain ⟨t', ht'⟩ := h t k ht
    exact ⟨t', by rw [State.Owes, hrole]; exact ht'⟩
  | look t k ht hk hrole _ =>
    refine hstays t _ hrole (fun k' hk' => ?_) (fun k' hk' => ?_)
    · rcases hk' with hk' | hk'
      · cases hk'
        obtain ⟨u, hu⟩ := hinv.taken k hk
        exact ⟨u, Or.inl hu⟩
      · cases hk'
    · rw [State.Owes, ht] at hk'
      rcases hk' with hk' | hk' <;> cases hk'
  | register t k ht hrole _ =>
    refine hstays t _ hrole (fun k' hk' => ?_) (fun k' hk' => ?_)
    · rcases hk' with hk' | hk'
      · cases hk'
      · cases hk'
        exact h t k (Or.inl ht)
    · rw [State.Owes, ht] at hk'
      rcases hk' with hk' | hk' <;> cases hk'
  | enter t k ht _ hrole _ =>
    refine hstays t _ hrole (fun k' hk' => ?_) (fun k' hk' => ?_)
    · rcases hk' with hk' | hk' <;> cases hk'
    · rw [State.Owes, ht] at hk'
      rcases hk' with hk' | hk' <;> cases hk'
  | release t k ht hrole _ =>
    refine hstays t _ hrole (fun k' hk' => ?_) (fun k' hk' => ?_)
    · rcases hk' with hk' | hk' <;> cases hk'
    · rw [State.Owes, ht] at hk'
      rcases hk' with hk' | hk' <;> cases hk'
      exact Or.inr rfl
  | notify t k ht hrole _ => exact hnotify t k (hheard k rfl) (Or.inr ht) hrole
  | releaseAndNotify t k ht hrole _ => exact hnotify t k (hheard k rfl) (Or.inl ht) hrole

end Steps

end Mapache.Lib.SingleFlight
