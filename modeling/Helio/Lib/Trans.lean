import Mathlib

/-!
# Labelled transition systems

A concurrent component is modelled here as a **labelled step function**
`step : σ → α → Option σ`. The label names who moves (a fiber, a thread, a producer)
and, where the code branches on something outside the state, which way; `none` says the
label is not enabled in that state (a suspended fiber, a finished producer). Every
interleaving of the parties is then a list of labels, and `run` executes one.

`Reachable step s s'` is the reflexive-transitive closure of "some label leads from `s` to
`s'`", taken from Mathlib's `Relation.ReflTransGen`, so its composition and induction
principles are Mathlib's. What this file adds is what a safety proof about such a model
uses:

* **the invariant rule** (`Reachable.invariant`): a property of the start state that every
  enabled step keeps holds of every reachable state;
* **runs that answer** (`runOut_rel`): two systems that answer each label alike from
  related states answer every run alike, the lockstep simulation an implementation of an
  abstract data type is checked by, also for a relation that holds only while a budget of
  steps remains, as when a counter must not wrap (`runOut_rel_graded`); and (`runOut_abs`)
  a system read through an abstraction function is a total abstract one on every run whose
  labels meet the callers' preconditions, enabled along all of it;
* **concrete runs** (`reachable_of_run`, `exists_reachable_of_run`): a list of labels that
  `run` executes is a witness of reachability, so a bad state is exhibited by naming the
  interleaving and letting the kernel run it;
* **chains of runs** (`Reachable.of_chain`): runs from `f i` to `f (i + 1)` for every
  `i < k` compose, which is how an interleaving with a symbolic number of rounds (say
  `2 ^ 32` notifications) is exhibited without unfolding it;
* **counting processes** (`count_update`): when one process of a finite family
  changes its local state, how many processes satisfy a predicate changes by at most the
  one that moved. Counters the code keeps (waiters, live keys) are compared with such
  counts.
-/

set_option autoImplicit false

namespace Trans

variable {σ α : Type*}

/-! ## Runs -/

/-- Execute the labels in order; `none` as soon as one of them is not enabled. -/
def run (step : σ → α → Option σ) : σ → List α → Option σ
  | s, [] => some s
  | s, a :: as => (step s a).bind fun s' => run step s' as

@[simp] theorem run_nil (step : σ → α → Option σ) (s : σ) : run step s [] = some s := rfl

@[simp] theorem run_cons (step : σ → α → Option σ) (s : σ) (a : α) (as : List α) :
    run step s (a :: as) = (step s a).bind fun s' => run step s' as := rfl

/-! ## Runs that answer -/

/-- Execute labels that each return an answer, and collect the answers; `none` as soon as
    one of them is not enabled. -/
def runOut {β : Type*} (step : σ → α → Option (σ × β)) : σ → List α → Option (σ × List β)
  | s, [] => some (s, [])
  | s, a :: as => (step s a).bind fun r =>
    (runOut step r.1 as).map fun r' => (r'.1, r.2 :: r'.2)

/-- An answer related to a defined one is defined. -/
theorem rel_some {α β : Type*} {r : α → β → Prop} {a : Option α} {b : β}
    (h : Option.Rel r a (some b)) : ∃ x, a = some x ∧ r x b := by
  cases h with
  | some hr => exact ⟨_, rfl, hr⟩

theorem rel_none {α β : Type*} {r : α → β → Prop} {a : Option α} (h : Option.Rel r a none) :
    a = none := by
  cases h
  rfl

theorem rel_mono {α β : Type*} {r s : α → β → Prop} {a : Option α} {b : Option β}
    (h : Option.Rel r a b) (hrs : ∀ x y, r x y → s x y) : Option.Rel s a b := by
  cases h with
  | some hr => exact .some (hrs _ _ hr)
  | none => exact .none

/-- **Lockstep simulation on a budget.** Two systems driven by the same labels, related by
    `R n` while `n` steps remain in the budget, that agree on whether each allowed label is
    enabled and on its answer, and end the step related by `R` on one step less, agree on
    every run of allowed labels that the budget covers, and end related. -/
theorem runOut_rel_graded {τ β : Type*} {f : σ → α → Option (σ × β)}
    {g : τ → α → Option (τ × β)} (R : ℕ → σ → τ → Prop) (P : α → Prop)
    (hstep : ∀ n s t a, R (n + 1) s t → P a →
      Option.Rel (fun x y => R n x.1 y.1 ∧ x.2 = y.2) (f s a) (g t a))
    {s : σ} {t : τ} {as : List α} (hR : R as.length s t) (hP : ∀ a ∈ as, P a) :
    Option.Rel (fun x y => R 0 x.1 y.1 ∧ x.2 = y.2) (runOut f s as) (runOut g t as) := by
  induction as generalizing s t with
  | nil => exact .some ⟨hR, rfl⟩
  | cons a as ih =>
    have h1 := hstep as.length s t a hR (hP a (List.mem_cons_self ..))
    simp only [runOut]
    generalize f s a = fx at h1 ⊢
    generalize g t a = gy at h1 ⊢
    cases h1 with
    | none => exact .none
    | @some x y hxy =>
      have hrest := ih hxy.1 fun b hb => hP b (List.mem_cons_of_mem a hb)
      simp only [Option.bind_some]
      generalize runOut f x.1 as = rx at hrest ⊢
      generalize runOut g y.1 as = ry at hrest ⊢
      cases hrest with
      | none => exact .none
      | some h => exact .some ⟨h.1, by dsimp only; rw [hxy.2, h.2]⟩

/-- **Lockstep simulation.** Two systems driven by the same labels, related by `R`, that
    agree on whether each allowed label is enabled and on its answer, and stay related,
    agree on every run of allowed labels, and end related. -/
theorem runOut_rel {τ β : Type*} {f : σ → α → Option (σ × β)} {g : τ → α → Option (τ × β)}
    (R : σ → τ → Prop) (P : α → Prop)
    (hstep : ∀ s t a, R s t → P a →
      Option.Rel (fun x y => R x.1 y.1 ∧ x.2 = y.2) (f s a) (g t a))
    {s : σ} {t : τ} {as : List α} (hR : R s t) (hP : ∀ a ∈ as, P a) :
    Option.Rel (fun x y => R x.1 y.1 ∧ x.2 = y.2) (runOut f s as) (runOut g t as) :=
  runOut_rel_graded (fun _ => R) P (fun _ => hstep) hR hP

/-- A system that answers every label answers every run. -/
theorem runOut_total {τ β : Type*} (g : τ → α → τ × β) (t : τ) (as : List α) :
    ∃ r, runOut (fun t a => some (g t a)) t as = some r := by
  induction as generalizing t with
  | nil => exact ⟨(t, []), rfl⟩
  | cons a as ih =>
    obtain ⟨r, hr⟩ := ih (g t a).1
    exact ⟨(r.1, (g t a).2 :: r.2), by simp only [runOut, Option.bind_some, hr, Option.map_some]⟩

/-- Whether each label of a run meets `p` in the state it is applied to. A label that is not
    enabled ends the run, and what comes after it is not looked at. -/
def meets {β : Type*} (step : σ → α → Option (σ × β)) (p : σ → α → Bool) : σ → List α → Bool
  | _, [] => true
  | s, a :: as => p s a && match step s a with
    | some r => meets step p r.1 as
    | none => true

/-- **Refinement by an abstraction function.** If every label that meets `p` is enabled,
    answers as the total system `g` answers from the abstract state `abs s`, and moves to a
    state whose abstraction is the next state of `g`, then every run whose labels meet `p`
    is enabled and is, read through `abs`, the run of `g` from `abs s`. -/
theorem runOut_abs {τ β : Type*} {f : σ → α → Option (σ × β)} (g : τ → α → τ × β)
    (abs : σ → τ) (p : σ → α → Bool)
    (hstep : ∀ s a, p s a = true →
      ∃ s', f s a = some (s', (g (abs s) a).2) ∧ abs s' = (g (abs s) a).1)
    {s : σ} {as : List α} (h : meets f p s as = true) :
    ∃ s' bs, runOut f s as = some (s', bs) ∧
      runOut (fun t a => some (g t a)) (abs s) as = some (abs s', bs) := by
  induction as generalizing s with
  | nil => exact ⟨s, [], rfl, rfl⟩
  | cons a as ih =>
    simp only [meets, Bool.and_eq_true] at h
    obtain ⟨s₁, hf, habs⟩ := hstep s a h.1
    rw [hf] at h
    obtain ⟨s', bs, hrun, hspec⟩ := ih h.2
    refine ⟨s', (g (abs s) a).2 :: bs, ?_, ?_⟩
    · simp only [runOut, hf, Option.bind_some, hrun, Option.map_some]
    · simp only [runOut, Option.bind_some, ← habs, hspec, Option.map_some]

/-! ## Reachability -/

/-- Some label leads from `s` to `s'`. -/
def Steps (step : σ → α → Option σ) (s s' : σ) : Prop := ∃ a, step s a = some s'

/-- `s'` is reachable from `s` by any number of enabled steps. -/
def Reachable (step : σ → α → Option σ) : σ → σ → Prop :=
  Relation.ReflTransGen (Steps step)

variable {step : σ → α → Option σ}

theorem Reachable.refl (s : σ) : Reachable step s s := Relation.ReflTransGen.refl

theorem Reachable.tail {s s' s'' : σ} {a : α} (h : Reachable step s s')
    (hs : step s' a = some s'') : Reachable step s s'' :=
  Relation.ReflTransGen.tail h ⟨a, hs⟩

theorem Reachable.trans {s s' s'' : σ} (h : Reachable step s s') (h' : Reachable step s' s'') :
    Reachable step s s'' :=
  Relation.ReflTransGen.trans h h'

/-- **The invariant rule.** What holds of `s` and survives every enabled step holds of
    everything reachable from `s`. -/
theorem Reachable.invariant (I : σ → Prop) (hstep : ∀ s a s', I s → step s a = some s' → I s')
    {s s' : σ} (h : Reachable step s s') (hs : I s) : I s' := by
  induction h with
  | refl => exact hs
  | tail _ hlast ih =>
    obtain ⟨a, ha⟩ := hlast
    exact hstep _ a _ ih ha

/-- A run that `run` executes is a witness of reachability. -/
theorem reachable_of_run {s s' : σ} (as : List α) (h : run step s as = some s') :
    Reachable step s s' := by
  induction as generalizing s with
  | nil =>
    cases h
    exact Reachable.refl _
  | cons a as ih =>
    obtain ⟨s₁, h₁, hrest⟩ := Option.bind_eq_some_iff.mp h
    exact Relation.ReflTransGen.head ⟨a, h₁⟩ (ih hrest)

/-- **A trace that ends where `p` holds.** The kernel runs the trace and checks `p` at its
    end; the lemma turns that into a reachable state. -/
theorem exists_reachable_of_run {s : σ} (as : List α) (p : σ → Bool)
    (h : (run step s as).map p = some true) : ∃ s', Reachable step s s' ∧ p s' = true := by
  cases hr : run step s as with
  | none => simp [hr] at h
  | some s' =>
    simp only [hr, Option.map_some, Option.some.injEq] at h
    exact ⟨s', reachable_of_run as hr, h⟩

/-- **Runs chain.** If each state `f i` reaches the next one for `i < k`, then `f 0` reaches
    `f k`. -/
theorem Reachable.of_chain (f : ℕ → σ) {k : ℕ}
    (h : ∀ i, i < k → Reachable step (f i) (f (i + 1))) : Reachable step (f 0) (f k) := by
  induction k with
  | zero => exact Reachable.refl _
  | succ k ih => exact (ih fun i hi => h i (by omega)).trans (h k (by omega))

/-! ## Counting processes -/

/-- The same over any finite set of processes that contains `i`. -/
theorem sum_update_of_mem {ι β : Type*} [DecidableEq ι] (s : Finset ι) {i : ι} (hi : i ∈ s)
    (f : β → ℕ) (l : ι → β) (v : β) :
    ∑ j ∈ s, f (Function.update l i v j) + f (l i) = ∑ j ∈ s, f (l j) + f v := by
  -- the update touches the summand of `i` only
  have hupd : ∀ j, f (Function.update l i v j) = Function.update (fun j => f (l j)) i (f v) j := by
    intro j
    by_cases hj : j = i
    · subst hj
      simp
    · simp [Function.update_of_ne hj]
  rw [Finset.sum_congr rfl fun j _ => hupd j, Finset.sum_update_of_mem hi,
    Finset.sum_eq_add_sum_sdiff_singleton_of_mem hi (fun j => f (l j))]
  omega

section Count

variable {ι β : Type*} [Fintype ι] (p : β → Prop) [DecidablePred p]

/-- The processes whose local state satisfies `p`. -/
def count (l : ι → β) : ℕ := (Finset.univ.filter fun i => p (l i)).card

/-- **One process moves, the sum moves with it.** A sum over the processes of a weight
    of their local states, after process `i` changes its state to `v`, plus `i`'s old
    weight, is the sum before plus `i`'s new weight. -/
theorem sum_update [DecidableEq ι] (f : β → ℕ) (l : ι → β) (i : ι) (v : β) :
    ∑ j, f (Function.update l i v j) + f (l i) = ∑ j, f (l j) + f v :=
  sum_update_of_mem Finset.univ (Finset.mem_univ i) f l v

/-- **One process moves, the count moves with it.** The count after process `i` changes
    its local state to `v`, plus whether `i` counted before, is the count before plus
    whether `i` counts now. -/
theorem count_update [DecidableEq ι] (l : ι → β) (i : ι) (v : β) :
    count p (Function.update l i v) + (if p (l i) then 1 else 0)
      = count p l + (if p v then 1 else 0) := by
  unfold count
  rw [Finset.card_filter, Finset.card_filter]
  exact sum_update (fun b => if p b then 1 else 0) l i v

theorem count_pos {l : ι → β} {i : ι} (h : p (l i)) : 0 < count p l :=
  Finset.card_pos.mpr ⟨i, by simpa using h⟩

/-- Two processes that both count, when at most one does, are the same. -/
theorem eq_of_count_le_one {l : ι → β} (h : count p l ≤ 1) {i j : ι} (hi : p (l i))
    (hj : p (l j)) : i = j :=
  Finset.card_le_one.mp h i (by simpa using hi) j (by simpa using hj)

theorem count_le_card (l : ι → β) : count p l ≤ Fintype.card ι :=
  Finset.card_filter_le _ _

end Count

end Trans
