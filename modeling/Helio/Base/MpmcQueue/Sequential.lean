import Helio.Base.MpmcQueue.Safety

/-!
# The bounded MPMC queue: calls that do not overlap

`Helio.Lib.Fifo` is the contract the channels of this repository take of their queues: a
bounded FIFO whose enqueue fails exactly when it is full and whose dequeue fails exactly when
it is empty. `Helio.Base.MpmcQueue.Safety` shows that with calls in flight
`mpmc_bounded_queue` fails in more states than that. This file shows that calls that do not
overlap meet the contract exactly.

A call that runs alone (`State.solo`) begins, and its thread takes its accesses until it
returns. From a state with no call in flight, such a call returns what the FIFO's operation
returns on the queue's contents (`State.contents`, the items enqueued and not yet dequeued),
and leaves the FIFO's contents behind (`Matches.solo`). By the lockstep rule of
`Helio.Lib.Trans`, every sequence of such calls from the constructor on, by any threads,
answers call for call as the FIFO of capacity `buffer_size` does (`solo_runOut`).
-/

set_option autoImplicit false

namespace Helio

namespace MpmcBoundedQueue

variable {T Th : Type}

/-- A call of a client: thread `t`'s `try_enqueue(data)` or `try_dequeue(data)`. -/
inductive Call (Th T : Type) where
  | enqueue (t : Th) (data : T)
  | dequeue (t : Th)

namespace Call

def thread : Call Th T → Th
  | .enqueue t _ => t
  | .dequeue t => t

def label : Call Th T → Label Th T
  | .enqueue t data => .tryEnqueue t data
  | .dequeue t => .tryDequeue t

end Call

/-- The bounded FIFO's answer to a call, and its contents after it. -/
def fifoCall (cap : ℕ) (l : List T) : Call Th T → List T × Ret T
  | .enqueue _ data =>
    match Fifo.tryEnqueue cap l data with
    | some l' => (l', .enqueued true)
    | none => (l, .enqueued false)
  | .dequeue _ =>
    match Fifo.tryDequeue l with
    | some (x, l') => (l', .dequeued (some x))
    | none => (l, .dequeued none)

variable [DecidableEq Th]

namespace State

/-- Thread `t`'s accesses until its call returns, at most `fuel` of them. -/
def runThread (s : State Th T) (t : Th) : ℕ → Option (State Th T)
  | 0 => some s
  | fuel + 1 =>
    match s.pc t with
    | .idle => some s
    | _ => (s.next t).bind fun s' => s'.runThread t fuel

/-- A call that runs alone: it begins, and its thread takes accesses until it returns, which
    takes at most five of them when no other call is in flight. The answer is what the call
    returned. -/
def solo (s : State Th T) (c : Call Th T) : Option (State Th T × Ret T) :=
  ((s.step c.label).bind fun s₁ => s₁.runThread c.thread 5).bind fun s' =>
    s'.returns.getLast?.map fun r => (s', r.2)

theorem runThread_next {s s' : State Th T} {t : Th} (hs : s.next t = some s') (fuel : ℕ) :
    s.runThread t (fuel + 1) = s'.runThread t fuel := by
  conv_lhs => unfold runThread
  split
  · rename_i hidle
    rw [next_idle s hidle] at hs
    cases hs
  · rw [hs]
    rfl

theorem runThread_idle {s : State Th T} {t : Th} (h : s.pc t = .idle) (fuel : ℕ) :
    s.runThread t fuel = some s := by
  cases fuel with
  | zero => rfl
  | succ fuel => simp only [runThread, h]

/-- The answer of a solo call is the return its run appended last. -/
theorem solo_of_run {s s₁ s' : State Th T} {c : Call Th T} {r : Ret T}
    (h₁ : s.step c.label = some s₁) (hrun : s₁.runThread c.thread 5 = some s')
    (hret : s'.returns = s.returns ++ [(c.thread, r)]) : s.solo c = some (s', r) := by
  simp only [solo, h₁, Option.bind_some, hrun, hret, List.getLast?_concat, Option.map_some]

end State

section Solo

variable {s : State Th T}

/-- A thread that changes only its own phase, in a state where every other thread is idle,
    leaves a state with no call in flight once it is idle itself. -/
theorem quiescent_of_update {s' : State Th T} {t : Th} (hq : s.Quiescent)
    (hpc : ∀ t', t' ≠ t → s'.pc t' = s.pc t') (ht : s'.pc t = .idle) : s'.Quiescent := by
  intro t'
  by_cases h : t' = t
  · rw [h, ht]
  · rw [hpc t' h, hq t']

/-- **An enqueue that runs alone on a ring with room** claims `enqueue_pos_`, whose cell is free,
    and returns `true` with the item at the back. -/
theorem Inv.solo_enqueue_room (h : Inv s) (hq : s.Quiescent) (t : Th) (data : T)
    (hroom : s.queue.enqueuePos < s.queue.dequeuePos + s.queue.capacity) :
    ∃ s', s.solo (.enqueue t data) = some (s', .enqueued true) ∧ Inv s' ∧ s'.Quiescent ∧
      s'.queue.capacity = s.queue.capacity ∧ s'.contents = s.contents ++ [data] := by
  have hcell := h.quiescent_free hq le_rfl hroom
  -- the call's five accesses, each from the state the one before leaves
  let E := s.queue.enqueuePos
  let s₁ := s.setPc t (.enqLoad data)
  let s₂ := s₁.setPc t (.enqSeq data E)
  let s₃ := s₂.setPc t (.enqCas data E)
  let s₄ : State Th T := { s₃.setPc t (.enqWrite data E) with
    queue := { s₃.queue with enqueuePos := E + 1 }
    enqueued := s₃.enqueued ++ [data] }
  let s₅ : State Th T := { s₄.setPc t (.enqPublish E) with
    queue := s₄.queue.setCell E { s₄.queue.cellAt E with storage := some data } }
  let s₆ : State Th T := { s₅.finish t (.enqueued true) with
    queue := s₅.queue.setCell E { s₅.queue.cellAt E with sequence := E + 1 } }
  have h₁ : s.step (.tryEnqueue t data) = some s₁ := by simp only [State.step, hq t, s₁]
  have h₂ : s₁.next t = some s₂ := State.next_enqLoad s₁ (by simp [s₁])
  have h₃ : s₂.next t = some s₃ :=
    State.next_enqSeq_eq s₂ (by simp [s₂]) (show (s.queue.cellAt E).sequence = E by rw [hcell])
  have h₄ : s₃.next t = some s₄ := State.next_enqCas_eq s₃ (by simp [s₃]) rfl
  have h₅ : s₄.next t = some s₅ := State.next_enqWrite s₄ (by simp [s₄, s₃])
  have h₆ : s₅.next t = some s₆ := State.next_enqPublish s₅ (by simp [s₅, s₄, s₃])
  have hrun : s₁.runThread t 5 = some s₆ := by
    rw [State.runThread_next h₂, State.runThread_next h₃, State.runThread_next h₄,
      State.runThread_next h₅, State.runThread_next h₆]
    rfl
  refine ⟨s₆, State.solo_of_run h₁ hrun (by simp [s₆, s₅, s₄, s₃, s₂, s₁, Call.thread]),
    (((((h.step h₁).next h₂).next h₃).next h₄).next h₅).next h₆,
    quiescent_of_update (t := t) hq (fun t' ht' => by simp [s₆, s₅, s₄, s₃, s₂, s₁, ht'])
      (by simp [s₆]), rfl, ?_⟩
  show (s.enqueued ++ [data]).drop s.queue.dequeuePos = s.enqueued.drop s.queue.dequeuePos ++ [data]
  exact List.drop_append_of_le_length (by rw [h.length]; exact h.le)

/-- **An enqueue that runs alone on a full ring** finds the cell of `enqueue_pos_` a lap behind
    and returns `false`, the queue unchanged. -/
theorem Inv.solo_enqueue_full (h : Inv s) (hq : s.Quiescent) (t : Th) (data : T)
    (hfull : s.queue.enqueuePos = s.queue.dequeuePos + s.queue.capacity) :
    ∃ s', s.solo (.enqueue t data) = some (s', .enqueued false) ∧ Inv s' ∧ s'.Quiescent ∧
      s'.queue.capacity = s.queue.capacity ∧ s'.contents = s.contents := by
  have htwo := h.two
  -- the cell of `enqueue_pos_` is the cell of `dequeue_pos_`, which holds its item
  have hseq : (s.queue.cellAt s.queue.enqueuePos).sequence < s.queue.enqueuePos := by
    rw [hfull, cellAt_add_capacity h.pow, h.quiescent_queued hq le_rfl (by omega)]
    dsimp only
    omega
  let s₁ := s.setPc t (.enqLoad data)
  let s₂ := s₁.setPc t (.enqSeq data s.queue.enqueuePos)
  let s₃ := s₂.finish t (.enqueued false)
  have h₁ : s.step (.tryEnqueue t data) = some s₁ := by simp only [State.step, hq t, s₁]
  have h₂ : s₁.next t = some s₂ := State.next_enqLoad s₁ (by simp [s₁])
  have h₃ : s₂.next t = some s₃ := State.next_enqSeq_lt s₂
    (show s₂.pc t = .enqSeq data s.queue.enqueuePos by simp [s₂]) hseq
  have hrun : s₁.runThread t 5 = some s₃ := by
    rw [State.runThread_next h₂, State.runThread_next h₃, State.runThread_idle (by simp [s₃])]
  exact ⟨s₃, State.solo_of_run h₁ hrun (by simp [s₃, s₂, s₁, Call.thread]), ((h.step h₁).next h₂).next h₃,
    quiescent_of_update (t := t) hq (fun t' ht' => by simp [s₃, s₂, s₁, ht']) (by simp [s₃]), rfl, rfl⟩

/-- **A dequeue that runs alone on a queue with items** claims `dequeue_pos_`, whose cell holds
    the front item, and returns it. -/
theorem Inv.solo_dequeue_item (h : Inv s) (hq : s.Quiescent) (t : Th) {x : T} {rest : List T}
    (hl : s.contents = x :: rest) :
    ∃ s', s.solo (.dequeue t) = some (s', .dequeued (some x)) ∧ Inv s' ∧ s'.Quiescent ∧
      s'.queue.capacity = s.queue.capacity ∧ s'.contents = rest := by
  let D := s.queue.dequeuePos
  have hlt : D < s.queue.enqueuePos := by
    have := h.length_contents
    rw [hl, List.length_cons] at this
    omega
  have hx : s.enqueued[D]? = some x := by
    have := congrArg (·[0]?) hl
    simpa [State.contents, D] using this
  have hcell := h.quiescent_queued hq le_rfl hlt
  let s₁ := s.setPc t .deqLoad
  let s₂ := s₁.setPc t (.deqSeq D)
  let s₃ := s₂.setPc t (.deqCas D)
  let s₄ : State Th T := { s₃.setPc t (.deqRead D) with
    queue := { s₃.queue with dequeuePos := D + 1 } }
  let s₅ : State Th T := { s₄.setPc t (.deqFree D x) with
    queue := s₄.queue.setCell D { s₄.queue.cellAt D with storage := none }
    moved := s₄.moved ++ [(D, x)] }
  let s₆ : State Th T := { s₅.finish t (.dequeued (some x)) with
    queue := s₅.queue.setCell D
      { s₅.queue.cellAt D with sequence := D + s₅.queue.bufferMask + 1 } }
  have h₁ : s.step (.tryDequeue t) = some s₁ := by simp only [State.step, hq t, s₁]
  have h₂ : s₁.next t = some s₂ := State.next_deqLoad s₁ (by simp [s₁])
  have h₃ : s₂.next t = some s₃ :=
    State.next_deqSeq_eq s₂ (by simp [s₂]) (show (s.queue.cellAt D).sequence = D + 1 by rw [hcell])
  have h₄ : s₃.next t = some s₄ := State.next_deqCas_eq s₃ (by simp [s₃]) rfl
  have h₅ : s₄.next t = some s₅ :=
    State.next_deqRead_some s₄ (by simp [s₄, s₃])
      (show (s.queue.cellAt D).storage = some x by rw [hcell]; exact hx)
  have h₆ : s₅.next t = some s₆ := State.next_deqFree s₅ (by simp [s₅, s₄, s₃])
  have hrun : s₁.runThread t 5 = some s₆ := by
    rw [State.runThread_next h₂, State.runThread_next h₃, State.runThread_next h₄,
      State.runThread_next h₅, State.runThread_next h₆]
    rfl
  refine ⟨s₆, State.solo_of_run h₁ hrun (by simp [s₆, s₅, s₄, s₃, s₂, s₁, Call.thread]),
    (((((h.step h₁).next h₂).next h₃).next h₄).next h₅).next h₆,
    quiescent_of_update (t := t) hq (fun t' ht' => by simp [s₆, s₅, s₄, s₃, s₂, s₁, ht'])
      (by simp [s₆]), rfl, ?_⟩
  show s.enqueued.drop (D + 1) = rest
  rw [← List.drop_drop, show s.enqueued.drop D = s.contents from rfl, hl, List.drop_one,
    List.tail_cons]

/-- **A dequeue that runs alone on an empty queue** finds the cell of `dequeue_pos_` free and
    returns `false`, the queue unchanged. -/
theorem Inv.solo_dequeue_empty (h : Inv s) (hq : s.Quiescent) (t : Th) (hl : s.contents = []) :
    ∃ s', s.solo (.dequeue t) = some (s', .dequeued none) ∧ Inv s' ∧ s'.Quiescent ∧
      s'.queue.capacity = s.queue.capacity ∧ s'.contents = s.contents := by
  have htwo := h.two
  have hle := h.le
  have hD : s.queue.dequeuePos = s.queue.enqueuePos := by
    have := h.length_contents
    rw [hl, List.length_nil] at this
    omega
  have hseq : (s.queue.cellAt s.queue.dequeuePos).sequence < s.queue.dequeuePos + 1 := by
    rw [h.quiescent_free hq (by omega) (by omega)]
    dsimp only
    omega
  let s₁ := s.setPc t .deqLoad
  let s₂ := s₁.setPc t (.deqSeq s.queue.dequeuePos)
  let s₃ := s₂.finish t (.dequeued none)
  have h₁ : s.step (.tryDequeue t) = some s₁ := by simp only [State.step, hq t, s₁]
  have h₂ : s₁.next t = some s₂ := State.next_deqLoad s₁ (by simp [s₁])
  have h₃ : s₂.next t = some s₃ := State.next_deqSeq_lt s₂ (by simp [s₂]) hseq
  have hrun : s₁.runThread t 5 = some s₃ := by
    rw [State.runThread_next h₂, State.runThread_next h₃, State.runThread_idle (by simp [s₃])]
  exact ⟨s₃, State.solo_of_run h₁ hrun (by simp [s₃, s₂, s₁, Call.thread]), ((h.step h₁).next h₂).next h₃,
    quiescent_of_update (t := t) hq (fun t' ht' => by simp [s₃, s₂, s₁, ht']) (by simp [s₃]), rfl, rfl⟩

end Solo

/-- A state with no call in flight whose queue holds the FIFO contents `l`, in a ring of
    `cap` cells. -/
structure Matches (cap : ℕ) (s : State Th T) (l : List T) : Prop where
  inv : Inv s
  quiescent : s.Quiescent
  capacity : s.queue.capacity = cap
  contents : s.contents = l

/-- **A call that runs alone is the FIFO's call**: it answers as the FIFO answers, and leaves
    the FIFO's contents. -/
theorem Matches.solo {cap : ℕ} {s : State Th T} {l : List T} (hm : Matches cap s l)
    (c : Call Th T) :
    ∃ s', s.solo c = some (s', (fifoCall cap l c).2) ∧ Matches cap s' (fifoCall cap l c).1 := by
  obtain ⟨h, hq, hcap, hl⟩ := hm
  have hlen := h.length_contents
  have hle := h.le
  have hcap' := h.le_cap
  cases c with
  | enqueue t data =>
    by_cases hroom : s.queue.enqueuePos < s.queue.dequeuePos + s.queue.capacity
    · have hfifo : Fifo.tryEnqueue cap l data = some (l ++ [data]) :=
        Fifo.tryEnqueue_of_lt data (by rw [← hl, hlen, ← hcap]; omega)
      obtain ⟨s', hs, h', hq', hc', hl'⟩ := h.solo_enqueue_room hq t data hroom
      refine ⟨s', ?_, h', hq', hc'.trans hcap, ?_⟩ <;> simp only [fifoCall, hfifo]
      · exact hs
      · rw [hl', hl]
    · have hfifo : Fifo.tryEnqueue cap l data = none :=
        Fifo.tryEnqueue_eq_none.mpr (by rw [← hl, hlen, ← hcap]; omega)
      obtain ⟨s', hs, h', hq', hc', hl'⟩ := h.solo_enqueue_full hq t data (by omega)
      refine ⟨s', ?_, h', hq', hc'.trans hcap, ?_⟩ <;> simp only [fifoCall, hfifo]
      · exact hs
      · rw [hl', hl]
  | dequeue t =>
    cases l with
    | nil =>
      obtain ⟨s', hs, h', hq', hc', hl'⟩ := h.solo_dequeue_empty hq t hl
      exact ⟨s', hs, h', hq', hc'.trans hcap, hl'.trans hl⟩
    | cons x rest =>
      obtain ⟨s', hs, h', hq', hc', hl'⟩ := h.solo_dequeue_item hq t hl
      exact ⟨s', hs, h', hq', hc'.trans hcap, hl'⟩

/-- **Calls that do not overlap are the bounded FIFO's calls.** From the constructor on, every
    sequence of calls by any threads, each running alone from its start to its return, is
    enabled, answers call for call as the bounded FIFO of capacity `buffer_size` answers, and
    leaves the queue holding the FIFO's items. -/
theorem solo_runOut {n : ℕ} {q : MpmcBoundedQueue T} (hq : create n = some q)
    (calls : List (Call Th T)) :
    ∃ s bs, Trans.runOut State.solo (start q) calls = some (s, bs) ∧
      Trans.runOut (fun l c => some (fifoCall n l c)) ([] : List T) calls =
        some (s.contents, bs) := by
  have hR : Matches n (start q : State Th T) [] :=
    ⟨Inv.init hq, fun _ => rfl, (create_spec hq).1, by simp [State.contents]⟩
  have hrel : Option.Rel (fun x y => Matches n x.1 y.1 ∧ x.2 = y.2)
      (Trans.runOut State.solo (start q) calls)
      (Trans.runOut (fun l c => some (fifoCall n l c)) [] calls) :=
    Trans.runOut_rel (f := State.solo) (g := fun l c => some (fifoCall n l c))
      (Matches n) (fun _ => True)
      (fun s l c hm _ => by
        obtain ⟨s', hs, hm'⟩ := hm.solo c
        rw [hs]
        exact .some ⟨hm', rfl⟩)
      hR (fun _ _ => trivial)
  obtain ⟨r, hr⟩ := Trans.runOut_total (fun l c => fifoCall n l c) ([] : List T) calls
  rw [hr] at hrel ⊢
  generalize Trans.runOut State.solo (start q) calls = x at hrel ⊢
  cases hrel with
  | some hxy => exact ⟨_, _, rfl, by rw [hxy.1.contents, hxy.2]⟩

/-- Three enqueues and a dequeue on a ring of two cells, each call alone: the third enqueue
    finds the ring full, and the dequeue returns the first item. -/
theorem solo_runOut_two_cells :
    ∃ q : MpmcBoundedQueue ℕ, create 2 = some q ∧ ∃ (s : State (Fin 2) ℕ) (bs : List (Ret ℕ)),
      Trans.runOut State.solo (start q) [.enqueue 0 7, .enqueue 1 8, .enqueue 0 9, .dequeue 1] =
        some (s, bs) ∧
      bs = [.enqueued true, .enqueued true, .enqueued false, .dequeued (some 7)] ∧
      s.contents = [8] := by
  refine ⟨_, rfl, ?_⟩
  obtain ⟨s, bs, hrun, hfifo⟩ := solo_runOut (n := 2) rfl
    ([.enqueue 0 7, .enqueue 1 8, .enqueue 0 9, .dequeue 1] : List (Call (Fin 2) ℕ))
  have hspec : Trans.runOut (fun l c => some (fifoCall 2 l c)) ([] : List ℕ)
      [(.enqueue 0 7 : Call (Fin 2) ℕ), .enqueue 1 8, .enqueue 0 9, .dequeue 1] =
        some ([8], [.enqueued true, .enqueued true, .enqueued false, .dequeued (some 7)]) := by
    decide
  rw [hspec, Option.some.injEq, Prod.mk.injEq] at hfifo
  exact ⟨s, bs, hrun, hfifo.2.symm, hfifo.1.symm⟩

end MpmcBoundedQueue

end Helio
