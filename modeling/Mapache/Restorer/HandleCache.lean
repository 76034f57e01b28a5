import Mapache.Fs.Tree
import Mapache.Lib.Patch
import Mapache.Lib.Run

/-!
# File handles of a restore

What a restore does to a local file is a list of operations (`FileOp`), and `contentOf` is what is
at the path after them. `FileHandleCache::get_handle` opens the file of a plan: the first time it
creates the file or truncates it and sets its length, or leaves it as it is when the plan is
selective; every other time it opens it for writing only. A cache has a bounded number of handles,
and the oldest one is closed when another one is needed, so a file may be opened many times.

Once it has been initialized, no later `get_handle` changes the file (`GetHandle.frame`). Over any
sequence of calls the cache stays consistent and within its bound, and a file whose handle was once
returned is never truncated again (`handleCache_consistent`).
-/

set_option autoImplicit false

namespace Mapache

open Lib

/-! ## Local files -/

/-- What is at the path of a file that is restored. -/
inductive LocalEntry where
  | absent
  | file (bytes : Bytes)
  /-- A symbolic link, and whether its target exists. -/
  | symlink (resolves : Bool)
  | directory
  deriving DecidableEq

/-- `Path::exists`, which follows links. -/
def LocalEntry.exists : LocalEntry → Bool
  | .absent => false
  | .file _ | .directory => true
  | .symlink resolves => resolves

/-- What is done to the file at a path. -/
inductive FileOp where
  | remove
  /-- Open with `create` and `truncate`. -/
  | truncate
  | setLen (length : Nat)
  | write (offset : Nat) (data : Bytes)
  deriving DecidableEq

/-- An operation changes what is at the path. -/
def FileOp.apply (entry : LocalEntry) : FileOp → LocalEntry
  | .remove => .absent
  | .truncate =>
    match entry with
    | .absent | .file _ => .file []
    | other => other
  | .setLen length =>
    match entry with
    | .file bytes => .file (bytes.take length ++ List.replicate (length - bytes.length) 0)
    | other => other
  | .write offset data =>
    match entry with
    | .file bytes => .file (writeAt 0 bytes offset data)
    | other => other

def FileOp.isWrite : FileOp → Bool
  | .write _ _ => true
  | _ => false

/-- What is at the path after the operations. -/
def contentOf (entry : LocalEntry) (ops : List FileOp) : LocalEntry := ops.foldl FileOp.apply entry

theorem contentOf_append (entry : LocalEntry) (ops ops' : List FileOp) :
    contentOf entry (ops ++ ops') = contentOf (contentOf entry ops) ops' := List.foldl_append

/-- No operation truncates the file after data has been written to it. -/
def NeverTruncatesData (ops : List FileOp) : Prop :=
  ∀ before after, ops = before ++ .truncate :: after → ∀ op ∈ before, op.isWrite = false

/-- The writes as operations. -/
def writeOps (writes : List (Bytes × Nat)) : List FileOp := writes.map fun w => .write w.2 w.1

/-! ## The cache -/

/-- `FileRestorePlan`. -/
structure FileRestorePlan where
  path : Path
  numBlobs : Nat
  size : Nat
  isHardlink : Bool
  isSelective : Bool

/-- `FileHandleCache`, with the indices of the files whose handles are open. -/
structure FileHandleCache where
  handles : List Nat
  order : List Nat
  maxHandles : Nat

namespace FileHandleCache

/-- `FileHandleCache::new`. -/
def new (maxHandles : Nat) : FileHandleCache := ⟨[], [], maxHandles⟩

/-- `FileHandleCache::touch`. -/
def touch (cache : FileHandleCache) (idx : Nat) : FileHandleCache :=
  if idx ∈ cache.order then { cache with order := cache.order.erase idx ++ [idx] } else cache

/-- The oldest handle is closed when there are too many. -/
def evict (cache : FileHandleCache) : FileHandleCache :=
  if cache.maxHandles ≤ cache.handles.length then
    match cache.order with
    | [] => cache
    | oldest :: order => { cache with handles := cache.handles.erase oldest, order := order }
  else cache

def insert (cache : FileHandleCache) (idx : Nat) : FileHandleCache :=
  { cache with handles := idx :: cache.handles, order := cache.order ++ [idx] }

variable {cache : FileHandleCache} {idx j : Nat}

theorem mem_handles_touch : j ∈ (cache.touch idx).handles ↔ j ∈ cache.handles := by
  unfold touch
  split <;> rfl

theorem mem_of_mem_handles_evict (h : j ∈ cache.evict.handles) : j ∈ cache.handles := by
  unfold evict at h
  split at h
  · split at h
    · exact h
    · exact List.mem_of_mem_erase h
  · exact h

end FileHandleCache

/-- A symbolic link at the path is removed. -/
def removeLink : LocalEntry → List FileOp
  | .symlink _ => [.remove]
  | _ => []

/-- The first opening of a file that is restored as a whole. A link is removed, the file is created
or truncated, and its length is set. Without `preallocate` this is the size of the plan; a failed
preallocation is only logged, and it may leave the file shorter. -/
inductive Initializes (preallocate : Bool) (plan : FileRestorePlan) (entry : LocalEntry) :
    List FileOp → Prop where
  | empty : entry ≠ .directory → plan.size = 0 →
      Initializes preallocate plan entry (removeLink entry ++ [.truncate])
  | sized {length : Nat} : entry ≠ .directory → 0 < plan.size → length ≤ plan.size →
      (preallocate = false → length = plan.size) →
      Initializes preallocate plan entry (removeLink entry ++ [.truncate, .setLen length])

/-- `FileHandleCache::get_handle`: the cache and the flag `initialized` before and after, what was
done to the file, and whether a handle is returned. -/
inductive GetHandle (preallocate : Bool) (plan : FileRestorePlan) (idx : Nat) (entry : LocalEntry) :
    FileHandleCache → Bool → FileHandleCache → Bool → List FileOp → Bool → Prop where
  | hit {cache : FileHandleCache} {initialized : Bool} : idx ∈ cache.handles →
      GetHandle preallocate plan idx entry cache initialized (cache.touch idx) initialized [] true
  /-- The file is opened again, without `truncate`. -/
  | reopen {cache : FileHandleCache} : idx ∉ cache.handles →
      GetHandle preallocate plan idx entry cache true (cache.evict.insert idx) true [] true
  | selective {cache : FileHandleCache} {bytes : Bytes} : idx ∉ cache.handles →
      plan.isSelective = true → entry = .file bytes →
      GetHandle preallocate plan idx entry cache false (cache.evict.insert idx) true [] true
  | create {cache : FileHandleCache} {ops : List FileOp} : idx ∉ cache.handles →
      plan.isSelective = false → Initializes preallocate plan entry ops →
      GetHandle preallocate plan idx entry cache false (cache.evict.insert idx) true ops true
  /-- An error. The flag stays as it is, but the file may have been removed or truncated already. -/
  | fail {cache : FileHandleCache} {initialized : Bool} {ops : List FileOp} : idx ∉ cache.handles →
      (∀ op ∈ ops, op.isWrite = false) → (initialized = true → ops = []) →
      GetHandle preallocate plan idx entry cache initialized cache.evict initialized ops false

section Handles

variable {preallocate : Bool} {plan : FileRestorePlan} {idx : Nat} {entry : LocalEntry}
  {cache cache' : FileHandleCache} {init init' ok : Bool} {ops : List FileOp}

theorem not_write_removeLink : ∀ op ∈ removeLink entry, op.isWrite = false := by
  intro op hop
  cases entry with
  | symlink resolves =>
    rw [List.mem_singleton.mp hop]
    rfl
  | _ => cases hop

/-- After a link is removed and the file is created or truncated, it is empty. -/
theorem contentOf_truncate (h : entry ≠ .directory) :
    contentOf entry (removeLink entry ++ [.truncate]) = .file [] := by
  cases entry with
  | directory => exact absurd rfl h
  | _ => rfl

/-- **The first opening leaves a file of zeros**, with one truncation. -/
theorem Initializes.spec (h : Initializes preallocate plan entry ops) :
    (∀ op ∈ ops, op.isWrite = false) ∧ ops.count .truncate = 1 ∧
      ∃ length, length ≤ plan.size ∧ contentOf entry ops = .file (List.replicate length 0) := by
  have hcount : (removeLink entry).count .truncate = 0 := by
    cases entry <;> rfl
  cases h with
  | empty hdir hsize =>
    refine ⟨fun op hop => ?_, ?_, 0, Nat.zero_le _, contentOf_truncate hdir⟩
    · rcases List.mem_append.mp hop with hrem | hop
      · exact not_write_removeLink op hrem
      · rw [List.mem_singleton.mp hop]
        rfl
    · rw [List.count_append, hcount]
      rfl
  | @sized length hdir hsize hle hlen =>
    have hsplit : removeLink entry ++ [.truncate, .setLen length] =
        (removeLink entry ++ [.truncate]) ++ [.setLen length] := by
      rw [List.append_assoc]
      rfl
    refine ⟨fun op hop => ?_, ?_, length, hle, ?_⟩
    · rcases List.mem_append.mp hop with hrem | hop
      · exact not_write_removeLink op hrem
      · rcases List.mem_cons.mp hop with rfl | hop
        · rfl
        · rw [List.mem_singleton.mp hop]
          rfl
    · rw [List.count_append, hcount]
      rfl
    · rw [hsplit, contentOf_append, contentOf_truncate hdir]
      simp [contentOf, FileOp.apply]

/-- What `get_handle` does to the cache, and when it touches the file. -/
theorem GetHandle.frame (h : GetHandle preallocate plan idx entry cache init cache' init' ops ok) :
    (∀ j ∈ cache'.handles, j ∈ cache.handles ∨ (j = idx ∧ init' = true)) ∧
      (∀ op ∈ ops, op.isWrite = false) ∧ (init = true → init' = true ∧ ops = []) ∧
      (ok = true → idx ∈ cache.handles ∨ init' = true) := by
  have hinsert : ∀ j ∈ (cache.evict.insert idx).handles,
      j ∈ cache.handles ∨ (j = idx ∧ true = true) := by
    intro j hj
    rcases List.mem_cons.mp hj with rfl | hj
    · exact Or.inr ⟨rfl, rfl⟩
    · exact Or.inl (FileHandleCache.mem_of_mem_handles_evict hj)
  have hnil : ∀ op ∈ ([] : List FileOp), op.isWrite = false := fun op hop => by cases hop
  cases h with
  | hit hmem =>
    exact ⟨fun j hj => Or.inl (FileHandleCache.mem_handles_touch.mp hj), hnil, fun h => ⟨h, rfl⟩,
      fun _ => Or.inl hmem⟩
  | reopen hmem => exact ⟨hinsert, hnil, fun _ => ⟨rfl, rfl⟩, fun _ => Or.inr rfl⟩
  | selective hmem hsel hentry => exact ⟨hinsert, hnil, fun h => (by cases h), fun _ => Or.inr rfl⟩
  | create hmem hsel hinit =>
    exact ⟨hinsert, hinit.spec.1, fun h => (by cases h), fun _ => Or.inr rfl⟩
  | fail hmem hops hkeep =>
    exact ⟨fun j hj => Or.inl (FileHandleCache.mem_of_mem_handles_evict hj), hops,
      fun h => ⟨h, hkeep h⟩, fun h => by cases h⟩

end Handles

/-! ## Sequences of calls -/

/-- The open handles are those in the order of their use, each once, and not too many. -/
structure FileHandleCache.Consistent (maxHandles : Nat) (cache : FileHandleCache) : Prop where
  max_eq : cache.maxHandles = maxHandles
  perm : cache.order.Perm cache.handles
  nodup : cache.handles.Nodup
  length_le : cache.handles.length ≤ maxHandles

namespace FileHandleCache.Consistent

variable {maxHandles idx : Nat} {cache : FileHandleCache}

theorem new (maxHandles : Nat) : (FileHandleCache.new maxHandles).Consistent maxHandles :=
  ⟨rfl, .refl _, List.nodup_nil, Nat.zero_le _⟩

/-- A hit moves the index to the end of the order. -/
theorem touch (h : cache.Consistent maxHandles) : (cache.touch idx).Consistent maxHandles := by
  unfold FileHandleCache.touch
  split
  · rename_i hmem
    have hmoved : (cache.order.erase idx ++ [idx]).Perm cache.order :=
      (List.perm_append_singleton idx _).trans (List.perm_cons_erase hmem).symm
    exact ⟨h.max_eq, hmoved.trans h.perm, h.nodup, h.length_le⟩
  · exact h

/-- After the eviction there is room for one more handle. -/
theorem evict (h : cache.Consistent maxHandles) (hmax : 1 ≤ maxHandles) :
    cache.evict.Consistent maxHandles ∧ cache.evict.handles.length < maxHandles := by
  unfold FileHandleCache.evict
  by_cases hfull : cache.maxHandles ≤ cache.handles.length
  · rw [if_pos hfull]
    rw [h.max_eq] at hfull
    cases horder : cache.order with
    | nil =>
      -- a full cache has a handle, so its order is not empty
      have hlen := h.perm.length_eq
      rw [horder, List.length_nil] at hlen
      omega
    | cons oldest order =>
      have hperm := h.perm
      rw [horder] at hperm
      have hmem : oldest ∈ cache.handles := hperm.subset List.mem_cons_self
      have hlen := List.length_erase_of_mem hmem
      have hle := h.length_le
      refine ⟨⟨h.max_eq, ?_, h.nodup.erase oldest, ?_⟩, ?_⟩
      · have herase := hperm.erase oldest
        rwa [List.erase_cons_head] at herase
      · dsimp only
        omega
      · dsimp only
        omega
  · rw [if_neg hfull]
    rw [h.max_eq] at hfull
    exact ⟨h, Nat.lt_of_not_le hfull⟩

theorem insert (h : cache.Consistent maxHandles) (hroom : cache.handles.length < maxHandles)
    (hidx : idx ∉ cache.handles) : (cache.insert idx).Consistent maxHandles :=
  ⟨h.max_eq, (List.perm_append_singleton idx _).trans (h.perm.cons idx), h.nodup.cons hidx, hroom⟩

end FileHandleCache.Consistent

/-- A call of `get_handle` with what it finds at its path and what it does there. -/
structure HandleCall where
  preallocate : Bool
  plan : FileRestorePlan
  idx : Nat
  entry : LocalEntry
  ops : List FileOp
  ok : Bool

/-- A cache with the flags of the files. -/
structure HandleState where
  cache : FileHandleCache
  initialized : Nat → Bool

/-- No handle is open, and no file is initialized. -/
def HandleState.start (maxHandles : Nat) : HandleState := ⟨.new maxHandles, fun _ => false⟩

/-- A call moves the cache and the flag of its file. -/
inductive HandleState.Step : HandleState → HandleCall → HandleState → Prop where
  | call {s : HandleState} {call : HandleCall} {cache : FileHandleCache} {init : Bool} :
      GetHandle call.preallocate call.plan call.idx call.entry s.cache (s.initialized call.idx)
        cache init call.ops call.ok →
      HandleState.Step s call ⟨cache, Function.update s.initialized call.idx init⟩

section Calls

variable {preallocate : Bool} {plan : FileRestorePlan} {entry : LocalEntry} {idx maxHandles : Nat}
  {cache cache' : FileHandleCache} {init init' ok : Bool} {ops : List FileOp}
  {s s' : HandleState} {call : HandleCall} {calls : List HandleCall}

/-- **A call keeps the cache consistent**, also when it fails. -/
theorem GetHandle.consistent
    (h : GetHandle preallocate plan idx entry cache init cache' init' ops ok)
    (hcache : cache.Consistent maxHandles) (hmax : 1 ≤ maxHandles) :
    cache'.Consistent maxHandles := by
  obtain ⟨hevict, hroom⟩ := hcache.evict hmax
  have hinsert (hidx : idx ∉ cache.handles) : (cache.evict.insert idx).Consistent maxHandles :=
    hevict.insert hroom fun hmem => hidx (FileHandleCache.mem_of_mem_handles_evict hmem)
  cases h with
  | hit hmem => exact hcache.touch
  | reopen hmem => exact hinsert hmem
  | selective hmem hsel hentry => exact hinsert hmem
  | create hmem hsel hinit => exact hinsert hmem
  | fail hmem hops hkeep => exact hevict

/-- After the calls: the files with an open handle, and those whose handle was once returned, are
initialized. -/
structure HandleState.Holds (maxHandles : Nat) (calls : List HandleCall) (s : HandleState) :
    Prop where
  cache : s.cache.Consistent maxHandles
  opened : ∀ i ∈ s.cache.handles, s.initialized i = true
  returned : ∀ call ∈ calls, call.ok = true → s.initialized call.idx = true
  kept : calls.Pairwise fun call later =>
    call.ok = true → later.idx = call.idx → .truncate ∉ later.ops

theorem HandleState.Holds.step (h : s.Holds maxHandles calls) (hstep : s.Step call s')
    (hmax : 1 ≤ maxHandles) : s'.Holds maxHandles (calls ++ [call]) := by
  obtain ⟨hget⟩ := hstep
  rename_i cache init
  obtain ⟨hhandles, -, hframe, hok⟩ := hget.frame
  -- the flag of a file is never taken back
  have hmono (i : Nat) (hi : s.initialized i = true) :
      Function.update s.initialized call.idx init i = true := by
    by_cases heq : i = call.idx
    · rw [heq, Function.update_self]
      exact (hframe (heq ▸ hi)).1
    · rw [Function.update_of_ne heq]
      exact hi
  refine ⟨hget.consistent h.cache hmax, ?_, ?_, ?_⟩
  · intro i hi
    rcases hhandles i hi with hold | ⟨rfl, hinit⟩
    · exact hmono i (h.opened i hold)
    · dsimp only
      rw [Function.update_self]
      exact hinit
  · intro call' hcall' hok'
    rcases List.mem_append.mp hcall' with hold | hnew
    · exact hmono _ (h.returned call' hold hok')
    · rw [List.mem_singleton.mp hnew] at hok' ⊢
      rcases hok hok' with hmem | hinit
      · exact hmono _ (h.opened _ hmem)
      · dsimp only
        rw [Function.update_self]
        exact hinit
  · apply List.pairwise_append.mpr
    refine ⟨h.kept, List.pairwise_singleton _ _, ?_⟩
    -- a file whose handle was returned is initialized, and then nothing is done to it
    intro call' hcall' later hlater hok' hidx
    rw [List.mem_singleton.mp hlater] at hidx ⊢
    have hinit : s.initialized call.idx = true := hidx ▸ h.returned call' hcall' hok'
    rw [(hframe hinit).2]
    exact List.not_mem_nil

/-- **The handle cache is consistent** after any calls on any files: its order lists the open handles,
each once, and there are never more of them than the capacity. Once a call has returned a handle for
a file, no later call truncates that file. -/
theorem handleCache_consistent (hmax : 1 ≤ maxHandles)
    (hrun : Run HandleState.Step (.start maxHandles) calls s) :
    s.cache.order.Perm s.cache.handles ∧ s.cache.handles.Nodup ∧
      s.cache.handles.length ≤ maxHandles ∧
      calls.Pairwise fun call later =>
        call.ok = true → later.idx = call.idx → .truncate ∉ later.ops := by
  have hholds : s.Holds maxHandles calls := by
    induction hrun with
    | nil =>
      exact ⟨.new maxHandles, fun i hi => (by cases hi), fun c hc => (by cases hc), .nil⟩
    | snoc _ hstep ih => exact ih.step hstep hmax
  exact ⟨hholds.cache.perm, hholds.cache.nodup, hholds.cache.length_le, hholds.kept⟩

/-- An empty file, opened with what is done to it. -/
def openEmpty (idx : Nat) (ops : List FileOp) : HandleCall where
  preallocate := false
  plan := ⟨[.normal [UInt8.ofNat idx]], 0, 0, false, false⟩
  idx := idx
  entry := if ops = [] then .file [] else .absent
  ops := ops
  ok := true

/-- Two files with room for one handle: the first one is evicted and opened again. -/
theorem exists_evicted_run : ∃ s, Run HandleState.Step (.start 1)
    [openEmpty 0 [.truncate], openEmpty 1 [.truncate], openEmpty 0 []] s := by
  have hfirst : Run HandleState.Step (.start 1) [openEmpty 0 [.truncate]] _ :=
    Run.nil.snoc (.call (.create (by decide) rfl (.empty (by decide) rfl)))
  have hsecond : Run HandleState.Step (.start 1) [openEmpty 0 [.truncate], openEmpty 1 [.truncate]] _ :=
    hfirst.snoc (.call (.create (by decide) rfl (.empty (by decide) rfl)))
  exact ⟨_, hsecond.snoc (.call (.reopen (by decide)))⟩

theorem handleCache_consistent_evicted : ∃ s, Run HandleState.Step (.start 1)
      [openEmpty 0 [.truncate], openEmpty 1 [.truncate], openEmpty 0 []] s ∧
    s.cache.order.Perm s.cache.handles ∧ s.cache.handles.Nodup ∧ s.cache.handles.length ≤ 1 ∧
      [openEmpty 0 [.truncate], openEmpty 1 [.truncate], openEmpty 0 []].Pairwise fun call later =>
        call.ok = true → later.idx = call.idx → .truncate ∉ later.ops := by
  obtain ⟨s, hrun⟩ := exists_evicted_run
  exact ⟨s, hrun, handleCache_consistent (le_refl 1) hrun⟩

end Calls

/-! ## Truncations and data -/

section Truncates

variable {ops ops' : List FileOp}

theorem neverTruncatesData_of_not_write (h : ∀ op ∈ ops, op.isWrite = false) :
    NeverTruncatesData ops := by
  intro before after heq op hop
  exact h op (by rw [heq]; exact List.mem_append_left _ hop)

/-- Operations that truncate nothing may follow. -/
theorem NeverTruncatesData.append (h : NeverTruncatesData ops) (hops : .truncate ∉ ops') :
    NeverTruncatesData (ops ++ ops') := by
  intro before after heq op hop
  rcases List.append_eq_append_iff.mp heq with ⟨mid, hbefore, hops'⟩ | ⟨mid, hops₀, hmid⟩
  · exact absurd (hops' ▸ List.mem_append_right _ List.mem_cons_self) hops
  · cases mid with
    | nil =>
      rw [List.nil_append] at hmid
      exact absurd (hmid ▸ List.mem_cons_self) hops
    | cons first rest =>
      cases hmid
      exact h before rest hops₀ op hop

theorem truncate_notMem_of_write (h : ∀ op ∈ ops, op.isWrite = true) :
    .truncate ∉ ops := fun hmem => by
  have := h _ hmem
  cases this

theorem isWrite_writeOps (writes : List (Bytes × Nat)) :
    ∀ op ∈ writeOps writes, op.isWrite = true := by
  intro op hop
  obtain ⟨w, -, rfl⟩ := List.mem_map.mp hop
  rfl

end Truncates

end Mapache
