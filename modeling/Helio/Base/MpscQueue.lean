import Helio.Lib.Trans
import Helio.Lib.Chain

/-!
# The MPSC intrusive queue

`base::MPSCIntrusiveQueue` (`base/mpsc_intrusive_queue.h`) is the intrusive node-based queue
of the 1024cores design: any number of producer threads `Push`, one consumer thread `Pop`s,
and the links live in the nodes' own `next_` fields. The queue object holds `head_`, the
consumer's end, `tail_`, an atomic pointer to the last node pushed, and a `stub()` node that
keeps the list from ever being empty.

`Push(item)` is three steps that other threads may interleave: store `item.next = null`,
swing `tail_` to `item` with an exchange, and store `prev.next = item` into the node the
exchange returned. Between the last two the list is cut: `prev` is the tail no longer but
does not yet point anywhere. `Pop` therefore has four exits, and when it finds the head to
be the last node it pushes the stub itself, so that the head can be handed out.

**The queue is a lossless FIFO** (`mpsc_queue_lossless_fifo`). For every interleaving of
producers that push nodes none of which is pushed again before `Pop` has returned it, with
a consumer whose `Pop` is one step:

* the nodes `Pop` has returned are a prefix of the nodes in the order of their `tail_`
  exchanges, so each push is returned at most once, never the stub, and the pushes of one
  producer in its own order;
* `Pop` returns `nullptr` only when every exchanged node has been returned, or a push has
  exchanged `tail_` and not yet linked `prev.next`;
* with no push in progress, `Pop` returns the remaining nodes in order and then `nullptr`
  for ever.

The proof follows the nodes from `head_` to `tail_` as a list `L` without duplicates
(`Shape`): each node points to the next one, or points nowhere while the producer that
exchanged the next one has still to link it. That shape holds between any two steps, mid
push included; what `Pop` returns is read off it (`Shape.pop`), and the histories of the
pushes and the returns (`Inv`) are the FIFO the queue implements.
-/

set_option autoImplicit false
set_option linter.unusedSectionVars false

namespace Helio

namespace MPSCIntrusiveQueue

/-- A node: the queue's `stub()`, or an item a producer pushes. -/
inductive Node (N : Type) where
  | stub
  | item (n : N)
  deriving DecidableEq, Repr

end MPSCIntrusiveQueue

open MPSCIntrusiveQueue in
/-- `head_`, `tail_`, and the `next_` field of every node (`MPSC_intrusive_load_next`). -/
structure MPSCIntrusiveQueue (N : Type) where
  head : Node N
  tail : Node N
  next : Node N → Option (Node N)

namespace MPSCIntrusiveQueue

variable {N : Type} [DecidableEq N]

/-! ## The queue's code -/

/-- The constructor: `head_` and `tail_` at the stub, whose `next_` is stored null. Every
    other node's `next_` holds whatever `next₀` says until a `Push` stores it. -/
def init (next₀ : Node N → Option (Node N)) : MPSCIntrusiveQueue N :=
  ⟨.stub, .stub, Function.update next₀ .stub none⟩

/-- `MPSC_intrusive_store_next(dest, next_node)`. -/
def storeNext (q : MPSCIntrusiveQueue N) (dest : Node N) (nx : Option (Node N)) :
    MPSCIntrusiveQueue N :=
  { q with next := Function.update q.next dest nx }

/-- `tail_.exchange(x)`: the old tail, and `x` in its place. -/
def exchangeTail (q : MPSCIntrusiveQueue N) (x : Node N) : Node N × MPSCIntrusiveQueue N :=
  (q.tail, { q with tail := x })

/-- `Push(x)` taken whole, as `Pop` runs it for the stub. -/
def push (q : MPSCIntrusiveQueue N) (x : Node N) : MPSCIntrusiveQueue N :=
  let q := q.storeNext x none
  let (prev, q) := q.exchangeTail x
  q.storeNext prev (some x)

/-- `Pop()` from the point where `head` is the node to hand out and `next` is its `next_`:
    hand it out if it has a successor; otherwise, if it is the tail, push the stub behind it
    and try again; if it is not the tail, a push is under way and there is nothing yet. -/
def popFrom (q : MPSCIntrusiveQueue N) (head : Node N) (next : Option (Node N)) :
    Option (Node N) × MPSCIntrusiveQueue N :=
  match next with
  | some nx => (some head, { q with head := nx })
  | none =>
    if q.tail ≠ head then (none, { q with head := head })
    else
      let q := q.push .stub
      match q.next head with
      | some nx => (some head, { q with head := nx })
      | none => (none, { q with head := head })

/-- `Pop()`: a stub at the head is skipped first, and an empty queue is a stub with no
    successor. -/
def pop (q : MPSCIntrusiveQueue N) : Option (Node N) × MPSCIntrusiveQueue N :=
  if q.head = .stub then
    match q.next .stub with
    | none => (none, q)
    | some nx => popFrom q nx (q.next nx)
  else popFrom q q.head (q.next q.head)

/-- `k` calls of `Pop()` by the consumer alone, and what each returned. -/
def drain : ℕ → MPSCIntrusiveQueue N → List (Option (Node N))
  | 0, _ => []
  | k + 1, q => q.pop.1 :: drain k q.pop.2

@[simp] theorem storeNext_head (q : MPSCIntrusiveQueue N) (d : Node N) (nx : Option (Node N)) :
    (q.storeNext d nx).head = q.head := rfl

@[simp] theorem storeNext_tail (q : MPSCIntrusiveQueue N) (d : Node N) (nx : Option (Node N)) :
    (q.storeNext d nx).tail = q.tail := rfl

@[simp] theorem storeNext_next (q : MPSCIntrusiveQueue N) (d : Node N) (nx : Option (Node N)) :
    (q.storeNext d nx).next = Function.update q.next d nx := rfl

@[simp] theorem exchangeTail_fst (q : MPSCIntrusiveQueue N) (x : Node N) :
    (q.exchangeTail x).1 = q.tail := rfl

@[simp] theorem exchangeTail_snd (q : MPSCIntrusiveQueue N) (x : Node N) :
    (q.exchangeTail x).2 = { q with tail := x } := rfl

/-- `popFrom` sets `head_` on every exit, so it does not depend on the old one. -/
theorem popFrom_head (q : MPSCIntrusiveQueue N) (h x : Node N) (nx : Option (Node N)) :
    popFrom { q with head := h } x nx = popFrom q x nx := by
  unfold popFrom push storeNext exchangeTail
  cases nx with
  | some _ => rfl
  | none => rfl

/-! ## Producers and the consumer -/

/-- How far a producer is in its `Push`. -/
inductive ProducerPc (N : Type) where
  | idle
  /-- `item.next = null` is stored -/
  | stored (n : N)
  /-- `tail_` is exchanged and returned `prev`; `prev.next = item` is still to come -/
  | exchanged (n : N) (prev : Node N)
  deriving DecidableEq, Repr

/-- The queue, its producers, and three histories that the code never reads: the items
    whose `Push` began, the `tail_` exchanges with their producer, and what `Pop` returned. -/
structure State (P N : Type) where
  queue : MPSCIntrusiveQueue N
  producer : P → ProducerPc N
  begun : List N
  exchanged : List (P × N)
  returns : List (Node N)

inductive Label (P N : Type) where
  /-- producer `p` calls `Push(n)` -/
  | push (p : P) (n : N)
  /-- the next step of producer `p`'s `Push` -/
  | advance (p : P)
  /-- the consumer calls `Pop()` -/
  | pop
  deriving DecidableEq, Repr

variable {P : Type} [DecidableEq P]

def start (next₀ : Node N → Option (Node N)) : State P N :=
  ⟨init next₀, fun _ => .idle, [], [], []⟩

/-- The nodes whose `tail_` exchange is done and that `Pop` has not yet returned. -/
def State.pending (s : State P N) : List (Node N) :=
  (s.exchanged.map fun e => .item e.2).drop s.returns.length

namespace State

/-- The first step of `Push(n)`: `MPSC_intrusive_store_next(item, nullptr)`. -/
@[simps] def storeItem (s : State P N) (p : P) (n : N) : State P N :=
  { s with
    queue := s.queue.storeNext (.item n) none
    producer := Function.update s.producer p (.stored n)
    begun := s.begun ++ [n] }

/-- The second step: `prev = tail_.exchange(item)`. -/
@[simps] def exchangeItem (s : State P N) (p : P) (n : N) : State P N :=
  { s with
    queue := (s.queue.exchangeTail (.item n)).2
    producer := Function.update s.producer p (.exchanged n (s.queue.exchangeTail (.item n)).1)
    exchanged := s.exchanged ++ [(p, n)] }

/-- The last step: `MPSC_intrusive_store_next(prev, item)`. -/
@[simps] def linkItem (s : State P N) (p : P) (n : N) (prev : Node N) : State P N :=
  { s with
    queue := s.queue.storeNext prev (some (.item n))
    producer := Function.update s.producer p .idle }

/-- The consumer's `Pop()`, and what it returned. -/
@[simps] def popNode (s : State P N) : State P N :=
  { s with queue := s.queue.pop.2, returns := s.returns ++ s.queue.pop.1.toList }

end State

/-- A producer pushes `n` only when every earlier push of `n` has been returned: the
    clients' side of the contract, read off the histories. -/
def step (s : State P N) : Label P N → Option (State P N)
  | .push p n =>
    match s.producer p with
    | .idle => if s.begun.count n = s.returns.count (.item n) then some (s.storeItem p n) else none
    | _ => none
  | .advance p =>
    match s.producer p with
    | .idle => none
    | .stored n => some (s.exchangeItem p n)
    | .exchanged n prev => some (s.linkItem p n prev)
  | .pop => some s.popNode

/-! ## The shape of the list from `head_` to `tail_` -/

/-- `b` follows `a`: `a` points to it, or points nowhere and a producer that exchanged `b`
    in behind `a` has still to link it. -/
def Link (next : Node N → Option (Node N)) (pc : P → ProducerPc N) (a b : Node N) : Prop :=
  next a = some b ∨ next a = none ∧ ∃ p n, b = .item n ∧ pc p = .exchanged n a

/-- The items of a list of nodes. -/
def items (L : List (Node N)) : List (Node N) := L.filter (· ≠ .stub)

/-- **The nodes from `head_` to `tail_` are `L`**, and each producer's push sits in it as
    its stage says. -/
structure Shape (q : MPSCIntrusiveQueue N) (pc : P → ProducerPc N) (L : List (Node N)) :
    Prop where
  head : L.head? = some q.head
  tail : L.getLast? = some q.tail
  nodup : L.Nodup
  chain : L.IsChain (Link q.next pc)
  last : q.next q.tail = none
  /-- the stub is only ever at the head -/
  stub : Node.stub ∈ L → q.head = .stub
  pending : ∀ p n prev, pc p = .exchanged n prev → [prev, .item n] <:+: L
  pendingNull : ∀ p n prev, pc p = .exchanged n prev → q.next prev = none
  pendingUnique : ∀ p p' n n' prev, pc p = .exchanged n prev → pc p' = .exchanged n' prev → p = p'
  stored : ∀ p n, pc p = .stored n → .item n ∉ L ∧ q.next (.item n) = none

/-- **What `Pop` returned**, with `L` before and `L'` after: nothing, with the items unchanged,
    because there are none or a link is missing; or the first item. -/
def PopResult (pc : P → ProducerPc N) (L L' : List (Node N)) (r : Option (Node N)) : Prop :=
  (r = none ∧ items L' = items L ∧ (items L = [] ∨ ∃ p n prev, pc p = .exchanged n prev)) ∨
    ∃ n, r = some (.item n) ∧ items L = .item n :: items L'

variable {q : MPSCIntrusiveQueue N} {pc : P → ProducerPc N}

@[simp] theorem items_stub_cons (L : List (Node N)) : items (.stub :: L) = items L := by
  simp [items]

@[simp] theorem items_item_cons (n : N) (L : List (Node N)) :
    items (.item n :: L) = .item n :: items L := by
  simp [items]

theorem items_append (L L' : List (Node N)) : items (L ++ L') = items L ++ items L' :=
  List.filter_append ..

theorem mem_items {x : Node N} {L : List (Node N)} (hx : x ≠ .stub) : x ∈ items L ↔ x ∈ L := by
  simp [items, hx]

/-- A link that depends on nothing the step changed survives it. -/
theorem Link.frame {next next' : Node N → Option (Node N)} {pc pc' : P → ProducerPc N}
    {a b : Node N} (h : Link next pc a b) (hnext : next' a = next a)
    (hpc : ∀ p n, pc p = .exchanged n a → pc' p = .exchanged n a) : Link next' pc' a b := by
  rcases h with h | ⟨h, p, n, hb, hp⟩
  · exact .inl (hnext.trans h)
  · exact .inr ⟨hnext.trans h, p, n, hb, hpc p n hp⟩

/-- The node after `x` is where `x` points, if it points anywhere. -/
theorem Link.eq_of_next {x y z : Node N} (h : Link q.next pc x y) (hx : q.next x = some z) :
    y = z := by
  rcases h with h | ⟨h, _⟩
  · exact Option.some.inj (h.symm.trans hx)
  · rw [hx] at h
    cases h

namespace Shape

theorem ne_nil {L : List (Node N)} (h : Shape q pc L) : L ≠ [] := by
  rintro rfl
  simpa using h.head

/-- A node with a successor is not the tail, so it is followed by something in `L`. -/
theorem cons_of_next {x z : Node N} {L : List (Node N)} (h : Shape q pc (x :: L))
    (hx : q.next x = some z) : ∃ L₀, L = z :: L₀ := by
  cases L with
  | nil =>
    have htail : x = q.tail := by simpa using h.tail
    have hlast := h.last
    rw [← htail, hx] at hlast
    cases hlast
  | cons y L₀ =>
    have hlink : Link q.next pc x y := (List.isChain_cons_cons.mp h.chain).1
    exact ⟨L₀, by rw [hlink.eq_of_next hx]⟩

/-- **Handing out the head** leaves the rest of the list in shape. -/
theorem dropHead {x y : Node N} {L : List (Node N)} (h : Shape q pc (x :: y :: L))
    (hx : q.next x = some y) : Shape { q with head := y } pc (y :: L) where
  head := rfl
  tail := by simpa using h.tail
  nodup := (List.nodup_cons.mp h.nodup).2
  chain := (List.isChain_cons_cons.mp h.chain).2
  last := h.last
  stub := by
    intro hs
    have hx' : x = .stub := by
      have := h.stub (List.mem_cons_of_mem _ hs)
      simpa [← this] using h.head
    subst hx'
    exact absurd hs (List.nodup_cons.mp h.nodup).1
  pending := by
    intro p n prev hp
    -- `prev` points nowhere, so it is not the head that points to `y`
    have hne : prev ≠ x := by
      rintro rfl
      rw [h.pendingNull p n prev hp] at hx
      cases hx
    exact List.infix_pair_of_cons_of_ne (h.pending p n prev hp) hne
  pendingNull := h.pendingNull
  pendingUnique := h.pendingUnique
  stored p n hp := ⟨fun hn => (h.stored p n hp).1 (List.mem_cons_of_mem _ hn), (h.stored p n hp).2⟩

/-- `Pop` from the non-stub head `x` of the list. -/
theorem popFrom {x : Node N} {L : List (Node N)} (h : Shape q pc (x :: L)) (hx : x ≠ .stub) :
    ∃ L', Shape (q.popFrom x (q.next x)).2 pc L' ∧
      PopResult pc (x :: L) L' (q.popFrom x (q.next x)).1 := by
  obtain ⟨n, rfl⟩ : ∃ n, x = .item n := by
    cases x with
    | stub => exact absurd rfl hx
    | item n => exact ⟨n, rfl⟩
  have hhead : q.head = .item n := by simpa using h.head.symm
  cases hnext : q.next (.item n) with
  | some z =>
    -- a successor: hand out `n`
    obtain ⟨L₀, rfl⟩ := h.cons_of_next hnext
    refine ⟨z :: L₀, ?_, .inr ⟨n, ?_, ?_⟩⟩
    · simpa [MPSCIntrusiveQueue.popFrom] using h.dropHead hnext
    · simp [MPSCIntrusiveQueue.popFrom]
    · simp
  | none =>
    by_cases htail : q.tail = .item n
    · -- the head is the tail: the stub goes in behind it and `n` is handed out
      have hL : Node.item n :: L = [.item n] := h.nodup.eq_singleton rfl (by rw [h.tail, htail])
      simp only [List.cons.injEq, true_and] at hL
      subst hL
      refine ⟨[.stub], ?_, .inr ⟨n, ?_, by simp [items]⟩⟩
      · simp only [MPSCIntrusiveQueue.popFrom, htail, ne_eq, not_true_eq_false, ↓reduceIte,
          push, exchangeTail, storeNext_next, storeNext_tail, Function.update_self]
        exact {
          head := rfl
          tail := rfl
          nodup := List.nodup_singleton _
          chain := .singleton _
          last := by simp
          stub := fun _ => rfl
          pending := fun p m prev hp => by
            have := h.pending p m prev hp
            simpa using this.length_le
          pendingNull := fun p m prev hp => by
            have := h.pending p m prev hp
            simpa using this.length_le
          pendingUnique := fun p _ m _ prev hp _ => by
            have := h.pending p m prev hp
            simpa using this.length_le
          stored := fun p m hp => by
            have hm := h.stored p m hp
            have hne : Node.item m ≠ .item n := fun he => hm.1 (he ▸ List.mem_singleton_self _)
            refine ⟨by simp, ?_⟩
            simp [Function.update_of_ne hne, hm.2] }
      · simp [MPSCIntrusiveQueue.popFrom, htail, push, exchangeTail]
    · -- a push has exchanged `tail_` and not linked `n` yet: nothing to hand out
      have hpop : q.popFrom (.item n) none = (none, q) := by
        simp only [MPSCIntrusiveQueue.popFrom, ne_eq, htail, not_false_eq_true, ↓reduceIte]
        rw [← hhead]
      rw [hpop]
      refine ⟨.item n :: L, h, .inl ⟨rfl, rfl, .inr ?_⟩⟩
      cases L with
      | nil => exact absurd (by simpa using h.tail.symm) htail
      | cons y L₀ =>
        rcases (List.isChain_cons_cons.mp h.chain).1 with hy | ⟨_, p, m, _, hp⟩
        · rw [hnext] at hy
          cases hy
        · exact ⟨p, m, _, hp⟩

/-- **What one `Pop` does to a queue in shape.** -/
theorem pop {L : List (Node N)} (h : Shape q pc L) :
    ∃ L', Shape q.pop.2 pc L' ∧ PopResult pc L L' q.pop.1 := by
  obtain ⟨x, L₁, rfl⟩ : ∃ x L₁, L = x :: L₁ := List.exists_cons_of_ne_nil h.ne_nil
  have hhead : q.head = x := by simpa using h.head.symm
  by_cases hx : x = .stub
  · subst hx
    cases hnext : q.next .stub with
    | none =>
      -- an empty queue, or one whose first push is not linked yet
      have hpop : q.pop = (none, q) := by simp [MPSCIntrusiveQueue.pop, hhead, hnext]
      rw [hpop]
      refine ⟨.stub :: L₁, h, .inl ⟨rfl, rfl, ?_⟩⟩
      cases L₁ with
      | nil => exact .inl (by simp [items])
      | cons y L₀ =>
        rcases (List.isChain_cons_cons.mp h.chain).1 with hy | ⟨_, p, m, _, hp⟩
        · rw [hnext] at hy
          cases hy
        · exact .inr ⟨p, m, _, hp⟩
    | some z =>
      -- skip the stub, then hand out from `z`
      obtain ⟨L₀, rfl⟩ := h.cons_of_next hnext
      have hz : z ≠ .stub := fun hz => (List.nodup_cons.mp h.nodup).1 (hz ▸ List.mem_cons_self ..)
      have hpop : q.pop = q.popFrom z (q.next z) := by simp [MPSCIntrusiveQueue.pop, hhead, hnext]
      have hskip := (h.dropHead hnext).popFrom hz
      rw [popFrom_head] at hskip
      rw [hpop]
      obtain ⟨L', hL', hres⟩ := hskip
      exact ⟨L', hL', by simpa [PopResult] using hres⟩
  · have hpop : q.pop = q.popFrom x (q.next x) := by simp [MPSCIntrusiveQueue.pop, hhead, hx]
    rw [hpop]
    exact h.popFrom hx

end Shape

/-! ## The invariant of the whole system -/

/-- **The invariant**: the queue is in shape with nodes `L`, each item is pushed by one
    producer at a time, a node is pushed again only after it was returned, and what `Pop`
    returned followed by the items of `L` are the exchanged nodes in order. -/
structure Inv (s : State P N) (L : List (Node N)) : Prop extends Shape s.queue s.producer L where
  storedUnique : ∀ p p' n, s.producer p = .stored n → s.producer p' = .stored n → p = p'
  inUse : ∀ n, (.item n ∈ L ∨ ∃ p, s.producer p = .stored n) →
    s.begun.count n = s.returns.count (.item n) + 1
  free : ∀ n, .item n ∉ L → (∀ p, s.producer p ≠ .stored n) →
    s.begun.count n = s.returns.count (.item n)
  fifo : s.returns ++ items L = s.exchanged.map fun e => .item e.2

theorem inv_start (next₀ : Node N → Option (Node N)) : Inv (start next₀ : State P N) [.stub] where
  head := rfl
  tail := rfl
  nodup := List.nodup_singleton _
  chain := .singleton _
  last := by simp [start, init]
  stub _ := rfl
  pending p _ _ hp := by cases hp
  pendingNull p _ _ hp := by cases hp
  pendingUnique p _ _ _ _ hp := by cases hp
  stored p _ hp := by cases hp
  storedUnique p _ _ hp := by cases hp
  inUse n hn := by simp [start] at hn
  free _ _ _ := rfl
  fifo := by simp [start, items]

variable {s : State P N} {L : List (Node N)}

/-- **The first step of a `Push`**: a free item is claimed; the list is not touched. -/
theorem Inv.storeItem {p : P} {n : N} (h : Inv s L) (hidle : s.producer p = .idle)
    (hfree : s.begun.count n = s.returns.count (.item n)) : Inv (s.storeItem p n) L := by
  -- the guard says `n` is nowhere: not in the list, and held by no producer
  have hnot : Node.item n ∉ L ∧ ∀ p', s.producer p' ≠ .stored n := by
    by_contra hc
    have hin : Node.item n ∈ L ∨ ∃ p', s.producer p' = .stored n := by
      by_cases hL : Node.item n ∈ L
      · exact .inl hL
      · exact .inr (by simpa [hL] using hc)
    have := h.inUse n hin
    omega
  have hne : ∀ a ∈ L, a ≠ .item n := fun a ha he => hnot.1 (he ▸ ha)
  have hnext : ∀ a, a ≠ .item n → (s.storeItem p n).queue.next a = s.queue.next a :=
    fun a ha => by simp [Function.update_of_ne ha]
  have hpc : ∀ p' x, (s.storeItem p n).producer p' = x ↔
      p' = p ∧ .stored n = x ∨ p' ≠ p ∧ s.producer p' = x := by
    intro p' x
    rw [State.storeItem_producer, Function.update_apply, ite_eq_iff]
  -- the exchanged producers are the same before and after
  have hexch : ∀ p' m prev, (s.storeItem p n).producer p' = .exchanged m prev ↔
      s.producer p' = .exchanged m prev := by
    intro p' m prev
    rw [hpc]
    constructor
    · rintro (⟨_, h'⟩ | ⟨_, h'⟩)
      · cases h'
      · exact h'
    · intro h'
      refine .inr ⟨?_, h'⟩
      rintro rfl
      rw [hidle] at h'
      cases h'
  have hstored : ∀ p' m, (s.storeItem p n).producer p' = .stored m →
      p' = p ∧ m = n ∨ p' ≠ p ∧ s.producer p' = .stored m := by
    intro p' m hp'
    rcases (hpc p' _).mp hp' with ⟨hp, he⟩ | hp'
    · exact .inl ⟨hp, (ProducerPc.stored.inj he).symm⟩
    · exact .inr hp'
  refine
    { head := h.head
      tail := h.tail
      nodup := h.nodup
      chain := h.chain.imp_infix fun a b hab hl =>
        hl.frame (hnext a (hne a (hab.mem (List.mem_cons_self ..)))) fun p' m hp' =>
          (hexch p' m a).mpr hp'
      last := ?_
      stub := h.stub
      pending := fun p' m prev hp' => h.pending p' m prev ((hexch p' m prev).mp hp')
      pendingNull := fun p' m prev hp' => ?_
      pendingUnique := fun p₁ p₂ m₁ m₂ prev h₁ h₂ =>
        h.pendingUnique p₁ p₂ m₁ m₂ prev ((hexch _ _ _).mp h₁) ((hexch _ _ _).mp h₂)
      stored := fun p' m hp' => ?_
      storedUnique := fun p₁ p₂ m h₁ h₂ => ?_
      inUse := fun m hm => ?_
      free := fun m hm hm' => ?_
      fifo := by simpa using h.fifo }
  · have ht := hne _ (List.mem_of_getLast? h.tail)
    simpa [Function.update_of_ne ht] using h.last
  · have hp := (hexch p' m prev).mp hp'
    have hprev : prev ∈ L := (h.pending p' m prev hp).mem (List.mem_cons_self ..)
    rw [hnext prev (hne _ hprev)]
    exact h.pendingNull p' m prev hp
  · rcases hstored p' m hp' with ⟨_, rfl⟩ | ⟨_, hp'⟩
    · simpa using hnot.1
    · have hm : Node.item m ≠ .item n := by
        rintro ⟨⟩
        exact hnot.2 p' hp'
      exact ⟨(h.stored p' m hp').1, by rw [hnext _ hm]; exact (h.stored p' m hp').2⟩
  · rcases hstored p₁ m h₁ with ⟨hp₁, hm⟩ | ⟨_, hq₁⟩ <;>
      rcases hstored p₂ m h₂ with ⟨hp₂, hm'⟩ | ⟨_, hq₂⟩
    · rw [hp₁, hp₂]
    · exact absurd (hm ▸ hq₂) (hnot.2 p₂)
    · exact absurd (hm' ▸ hq₁) (hnot.2 p₁)
    · exact h.storedUnique p₁ p₂ m hq₁ hq₂
  · by_cases hmn : m = n
    · subst hmn
      simp [List.count_append, hfree]
    · have hm₀ : Node.item m ∈ L ∨ ∃ p', s.producer p' = .stored m := by
        rcases hm with hm | ⟨p', hp'⟩
        · exact .inl hm
        · rcases hstored p' m hp' with ⟨_, rfl⟩ | ⟨_, hp'⟩
          · exact absurd rfl hmn
          · exact .inr ⟨p', hp'⟩
      simpa [List.count_append, Ne.symm hmn] using h.inUse m hm₀
  · by_cases hmn : m = n
    · subst hmn
      exact absurd (by simp) (hm' p)
    · have hm₀ : ∀ p', s.producer p' ≠ .stored m := by
        intro p' hp'
        refine hm' p' ((hpc p' _).mpr (.inr ⟨?_, hp'⟩))
        rintro rfl
        rw [hidle] at hp'
        cases hp'
      simpa [List.count_append, Ne.symm hmn] using h.free m hm hm₀

/-- **The exchange of `tail_`**: the item joins the list at its end, still unlinked. -/
theorem Inv.exchangeItem {p : P} {n : N} (h : Inv s L) (hp : s.producer p = .stored n) :
    Inv (s.exchangeItem p n) (L ++ [.item n]) := by
  obtain ⟨hnL, hnext⟩ := h.stored p n hp
  have hpc : ∀ p' x, (s.exchangeItem p n).producer p' = x ↔
      p' = p ∧ .exchanged n s.queue.tail = x ∨ p' ≠ p ∧ s.producer p' = x := by
    intro p' x
    rw [State.exchangeItem_producer, exchangeTail_fst, Function.update_apply, ite_eq_iff]
  -- the old exchanged producers stay exchanged; `p` is the one new
  have hold : ∀ p' m prev, s.producer p' = .exchanged m prev →
      (s.exchangeItem p n).producer p' = .exchanged m prev := by
    intro p' m prev hp'
    refine (hpc p' _).mpr (.inr ⟨?_, hp'⟩)
    rintro rfl
    rw [hp] at hp'
    cases hp'
  have hnew : ∀ p' m prev, (s.exchangeItem p n).producer p' = .exchanged m prev →
      p' = p ∧ m = n ∧ prev = s.queue.tail ∨ p' ≠ p ∧ s.producer p' = .exchanged m prev := by
    intro p' m prev hp'
    rcases (hpc p' _).mp hp' with ⟨hpp, he⟩ | hp'
    · obtain ⟨rfl, rfl⟩ := ProducerPc.exchanged.inj he
      exact .inl ⟨hpp, rfl, rfl⟩
    · exact .inr hp'
  have hstored : ∀ p' m, (s.exchangeItem p n).producer p' = .stored m →
      p' ≠ p ∧ s.producer p' = .stored m ∧ m ≠ n := by
    intro p' m hp'
    rcases (hpc p' _).mp hp' with ⟨_, he⟩ | ⟨hpp, hq⟩
    · cases he
    · refine ⟨hpp, hq, ?_⟩
      rintro rfl
      exact hpp (h.storedUnique p' p _ hq hp)
  refine
    { head := by rw [List.head?_append, h.head, Option.some_or]; rfl
      tail := by simp
      nodup := List.nodup_append.mpr ⟨h.nodup, List.nodup_singleton _,
        fun a ha b hb hab => hnL (by simp at hb; rw [← hb, ← hab]; exact ha)⟩
      chain := List.isChain_append.mpr ⟨h.chain.imp fun a b hl => hl.frame rfl (hold · · a),
        .singleton _, fun a ha b hb => ?_⟩
      last := by simpa using hnext
      stub := fun hs => h.stub (by simpa using hs)
      pending := fun p' m prev hp' => ?_
      pendingNull := fun p' m prev hp' => ?_
      pendingUnique := fun p₁ p₂ m₁ m₂ prev h₁ h₂ => ?_
      stored := fun p' m hp' => ?_
      storedUnique := fun p₁ p₂ m h₁ h₂ => ?_
      inUse := fun m hm => ?_
      free := fun m hm hm' => ?_
      fifo := ?_ }
  · -- the new pair: the old tail points nowhere and `p` is to link it
    have ha' : a = s.queue.tail := by
      rw [h.tail] at ha
      exact (Option.some.inj ha).symm
    simp only [List.head?_cons, Option.mem_def, Option.some.injEq] at hb
    subst ha' hb
    exact .inr ⟨h.last, p, n, rfl, (hpc p _).mpr (.inl ⟨rfl, rfl⟩)⟩
  · rcases hnew p' m prev hp' with ⟨_, rfl, rfl⟩ | ⟨_, hp'⟩
    · exact List.infix_pair_concat h.tail
    · exact (h.pending p' m prev hp').trans (List.prefix_append _ _).isInfix
  · rcases hnew p' m prev hp' with ⟨_, rfl, rfl⟩ | ⟨_, hp'⟩
    · exact h.last
    · exact h.pendingNull p' m prev hp'
  · -- two producers waiting on one `prev`: one of them would follow the old tail
    have key : ∀ p' m', s.producer p' = .exchanged m' s.queue.tail → False :=
      fun p' m' hp' => h.nodup.not_infix_pair_of_getLast h.tail (h.pending p' m' _ hp')
    rcases hnew p₁ m₁ prev h₁ with ⟨hp₁, _, he₁⟩ | ⟨_, hq₁⟩ <;>
      rcases hnew p₂ m₂ prev h₂ with ⟨hp₂, _, he₂⟩ | ⟨_, hq₂⟩
    · rw [hp₁, hp₂]
    · exact (key p₂ m₂ (he₁ ▸ hq₂)).elim
    · exact (key p₁ m₁ (he₂ ▸ hq₁)).elim
    · exact h.pendingUnique p₁ p₂ m₁ m₂ prev hq₁ hq₂
  · obtain ⟨_, hp', hmn⟩ := hstored p' m hp'
    have hne : Node.item m ≠ .item n := fun he => hmn (Node.item.inj he)
    exact ⟨by simpa [hne] using (h.stored p' m hp').1, by simpa using (h.stored p' m hp').2⟩
  · obtain ⟨_, h₁, _⟩ := hstored p₁ m h₁
    obtain ⟨_, h₂, _⟩ := hstored p₂ m h₂
    exact h.storedUnique p₁ p₂ m h₁ h₂
  · apply h.inUse m
    rcases hm with hm | ⟨p', hp'⟩
    · rcases List.mem_append.mp hm with hm | hm
      · exact .inl hm
      · simp only [List.mem_singleton, Node.item.injEq] at hm
        exact .inr ⟨p, hm ▸ hp⟩
    · exact .inr ⟨p', (hstored p' m hp').2.1⟩
  · have hmn : m ≠ n := by
      rintro rfl
      exact hm (by simp)
    apply h.free m (fun hm₀ => hm (List.mem_append_left _ hm₀))
    intro p' hp'
    by_cases hpp : p' = p
    · subst hpp
      rw [hp] at hp'
      exact hmn (ProducerPc.stored.inj hp').symm
    · exact hm' p' ((hpc p' _).mpr (.inr ⟨hpp, hp'⟩))
  · rw [State.exchangeItem_returns, State.exchangeItem_exchanged, items_append,
      ← List.append_assoc, h.fifo]
    simp [items]

/-- **The link `prev.next = item`**: the missing pointer is stored and the producer is done. -/
theorem Inv.linkItem {p : P} {n : N} {prev : Node N} (h : Inv s L)
    (hp : s.producer p = .exchanged n prev) : Inv (s.linkItem p n prev) L := by
  have hpair := h.pending p n prev hp
  have hprevL : prev ∈ L := hpair.mem (List.mem_cons_self ..)
  have htail : s.queue.tail ≠ prev := by
    rintro he
    rw [← he] at hpair
    exact h.nodup.not_infix_pair_of_getLast h.tail hpair
  have hpc : ∀ p' x, (s.linkItem p n prev).producer p' = x ↔
      p' = p ∧ .idle = x ∨ p' ≠ p ∧ s.producer p' = x := by
    intro p' x
    rw [State.linkItem_producer, Function.update_apply, ite_eq_iff]
  -- `p` is idle now; every other producer is where it was
  have hother : ∀ p' x, (s.linkItem p n prev).producer p' = x → x ≠ .idle →
      p' ≠ p ∧ s.producer p' = x := by
    intro p' x hp' hx
    rcases (hpc p' x).mp hp' with ⟨_, he⟩ | hp'
    · exact absurd he.symm hx
    · exact hp'
  have hstored : ∀ p' m, (s.linkItem p n prev).producer p' = .stored m ↔
      s.producer p' = .stored m := by
    intro p' m
    refine ⟨fun hp' => (hother p' _ hp' (by simp)).2, fun hp' => (hpc p' _).mpr (.inr ⟨?_, hp'⟩)⟩
    rintro rfl
    rw [hp] at hp'
    cases hp'
  refine
    { head := h.head
      tail := h.tail
      nodup := h.nodup
      chain := h.chain.imp_infix fun a b hab hl => ?_
      last := by simpa [Function.update_of_ne htail] using h.last
      stub := h.stub
      pending := fun p' m a hp' => h.pending p' m a (hother p' _ hp' (by simp)).2
      pendingNull := fun p' m a hp' => ?_
      pendingUnique := fun p₁ p₂ m₁ m₂ a h₁ h₂ =>
        h.pendingUnique p₁ p₂ m₁ m₂ a (hother _ _ h₁ (by simp)).2 (hother _ _ h₂ (by simp)).2
      stored := fun p' m hp' => ?_
      storedUnique := fun p₁ p₂ m h₁ h₂ =>
        h.storedUnique p₁ p₂ m ((hstored _ _).mp h₁) ((hstored _ _).mp h₂)
      inUse := fun m hm => h.inUse m (hm.imp id fun ⟨p', hp'⟩ => ⟨p', (hstored p' m).mp hp'⟩)
      free := fun m hm hm' => h.free m hm fun p' hp' => hm' p' ((hstored p' m).mpr hp')
      fifo := h.fifo }
  · by_cases ha : a = prev
    · -- the node after `prev` is the item `p` exchanged
      subst ha
      have hb : b = .item n := h.nodup.infix_pair_unique hab hpair
      exact .inl (by simp [hb])
    · refine hl.frame (by simp [Function.update_of_ne ha]) fun p' m hp' => ?_
      refine (hpc p' _).mpr (.inr ⟨?_, hp'⟩)
      rintro rfl
      rw [hp] at hp'
      exact ha (ProducerPc.exchanged.inj hp').2.symm
  · obtain ⟨hpp, hp'⟩ := hother p' _ hp' (by simp)
    have ha : a ≠ prev := fun ha => hpp (h.pendingUnique p' p m n prev (ha ▸ hp') hp)
    simpa [Function.update_of_ne ha] using h.pendingNull p' m a hp'
  · have hp₀ := (hstored p' m).mp hp'
    have hne : Node.item m ≠ prev := fun he => (h.stored p' m hp₀).1 (he ▸ hprevL)
    exact ⟨(h.stored p' m hp₀).1, by simpa [Function.update_of_ne hne] using (h.stored p' m hp₀).2⟩

/-- **A `Pop`**: the queue moves as `Shape.pop` says and the returned item leaves the FIFO. -/
theorem Inv.popNode (h : Inv s L) :
    ∃ L', Inv s.popNode L' ∧ PopResult s.producer L L' s.queue.pop.1 := by
  obtain ⟨L', hL', hres⟩ := h.toShape.pop
  have hitems : ∀ {M : List (Node N)} m, Node.item m ∈ items M ↔ Node.item m ∈ M :=
    fun m => mem_items (by simp)
  refine ⟨L', { toShape := hL', storedUnique := h.storedUnique, inUse := ?_, free := ?_,
                fifo := ?_ }, hres⟩
  · intro m hm
    rw [State.popNode_begun, State.popNode_returns]
    rcases hres with ⟨hr, hiL, _⟩ | ⟨k, hr, hiL⟩
    · rw [hr, Option.toList_none, List.append_nil]
      apply h.inUse m
      rcases hm with hm | hm
      · exact .inl ((hitems m).mp (hiL ▸ (hitems m).mpr hm))
      · exact .inr hm
    · -- the returned item `k` is no longer in the list, nor held by a producer
      have hkm : m ≠ k := by
        rintro rfl
        have hnd : (items L).Nodup := h.nodup.filter _
        rw [hiL] at hnd
        rcases hm with hm | ⟨p, hp⟩
        · exact (List.nodup_cons.mp hnd).1 ((hitems m).mpr hm)
        · exact (h.stored p m hp).1 ((hitems m).mp (hiL ▸ List.mem_cons_self ..))
      rw [hr, Option.toList_some, List.count_append]
      have hm₀ : Node.item m ∈ L ∨ ∃ p, s.producer p = .stored m := by
        rcases hm with hm | hm
        · refine .inl ((hitems m).mp ?_)
          rw [hiL]
          exact List.mem_cons_of_mem _ ((hitems m).mpr hm)
        · exact .inr hm
      simpa [Ne.symm hkm, hkm] using h.inUse m hm₀
  · intro m hm hm'
    rw [State.popNode_begun, State.popNode_returns]
    rcases hres with ⟨hr, hiL, _⟩ | ⟨k, hr, hiL⟩
    · rw [hr, Option.toList_none, List.append_nil]
      exact h.free m (fun hm₀ => hm ((hitems m).mp (hiL ▸ (hitems m).mpr hm₀))) hm'
    · rw [hr, Option.toList_some, List.count_append]
      by_cases hkm : m = k
      · subst hkm
        have hin : Node.item m ∈ L := (hitems m).mp (hiL ▸ List.mem_cons_self ..)
        simpa using h.inUse m (.inl hin)
      · have hm₀ : Node.item m ∉ L := by
          intro hm₀
          have := (hitems m).mpr hm₀
          rw [hiL] at this
          rcases List.mem_cons.mp this with he | he
          · exact hkm (Node.item.inj he)
          · exact hm ((hitems m).mp he)
        simpa [List.count_singleton, Ne.symm hkm] using h.free m hm₀ hm'
  · rw [State.popNode_returns, State.popNode_exchanged]
    rcases hres with ⟨hr, hiL, _⟩ | ⟨k, hr, hiL⟩
    · rw [hr, Option.toList_none, List.append_nil, hiL]
      exact h.fifo
    · rw [hr, Option.toList_some, List.append_assoc, List.singleton_append, ← hiL]
      exact h.fifo

/-- Every step keeps the invariant, for some list of nodes. -/
theorem Inv.step {s' : State P N} {l : Label P N} (h : Inv s L) (hs : step s l = some s') :
    ∃ L', Inv s' L' := by
  cases l with
  | push p n =>
    simp only [MPSCIntrusiveQueue.step] at hs
    split at hs
    · rename_i hidle
      split at hs
      · cases hs
        exact ⟨L, h.storeItem hidle ‹_›⟩
      · cases hs
    · cases hs
  | advance p =>
    simp only [MPSCIntrusiveQueue.step] at hs
    split at hs
    · cases hs
    · rename_i n hp
      cases hs
      exact ⟨_, h.exchangeItem hp⟩
    · rename_i n prev hp
      cases hs
      exact ⟨L, h.linkItem hp⟩
  | pop =>
    cases hs
    obtain ⟨L', hL', _⟩ := h.popNode
    exact ⟨L', hL'⟩

theorem Inv.reachable {next₀ : Node N → Option (Node N)} {s : State P N}
    (h : Trans.Reachable MPSCIntrusiveQueue.step (start next₀) s) : ∃ L, Inv s L :=
  Trans.Reachable.invariant (fun s => ∃ L, Inv s L)
    (fun _ _ _ ⟨_, hL⟩ hs => hL.step hs) h ⟨_, inv_start next₀⟩

/-! ## The FIFO the queue implements -/

/-- The items still in the list are the exchanged nodes not yet returned. -/
theorem Inv.pending_eq (h : Inv s L) : s.pending = items L := by
  rw [State.pending, ← h.fifo, List.drop_left]

/-- **With no push under way**, the consumer alone gets every item in order and then
    `nullptr` for ever. -/
theorem Shape.drain (hidle : ∀ p, pc p = .idle) :
    ∀ (k : ℕ) {q : MPSCIntrusiveQueue N} {L : List (Node N)}, Shape q pc L →
      MPSCIntrusiveQueue.drain ((items L).length + k) q =
        (items L).map some ++ List.replicate k none := by
  -- induction on the number of items left, then on the number of calls after them
  have hnone : ∀ {L L' : List (Node N)} {r}, PopResult pc L L' r →
      (r = none ∧ items L = [] ∧ items L' = []) ∨
        ∃ n, r = some (.item n) ∧ items L = .item n :: items L' := by
    intro L L' r hres
    rcases hres with ⟨hr, hiL, hnil | ⟨p, n, prev, hp⟩⟩ | hres
    · exact .inl ⟨hr, hnil, hiL ▸ hnil⟩
    · rw [hidle p] at hp
      cases hp
    · exact .inr hres
  intro k q L hL
  induction hlen : (items L).length generalizing k q L with
  | zero =>
    rw [List.length_eq_zero_iff] at hlen
    induction k generalizing q L with
    | zero => simp [hlen, MPSCIntrusiveQueue.drain]
    | succ k ih =>
      obtain ⟨L', hL', hres⟩ := hL.pop
      rcases hnone hres with ⟨hr, _, hL'nil⟩ | ⟨n, _, hi⟩
      · have := ih hL' hL'nil
        simp only [hlen, hL'nil, List.map_nil, List.nil_append, zero_add] at this ⊢
        rw [MPSCIntrusiveQueue.drain, hr, this, List.replicate_succ]
      · rw [hlen] at hi
        cases hi
  | succ m ih =>
    obtain ⟨L', hL', hres⟩ := hL.pop
    rcases hnone hres with ⟨_, hi, _⟩ | ⟨n, hr, hi⟩
    · rw [hi] at hlen
      cases hlen
    · have hlen' : (items L').length = m := by
        rw [hi, List.length_cons] at hlen
        omega
      rw [hi, show m + 1 + k = m + k + 1 by omega, MPSCIntrusiveQueue.drain, hr, ih k hL' hlen']
      simp

/-- **`MPSCIntrusiveQueue` is a lossless FIFO.** In every reachable state of any number of
    producers and one consumer: what `Pop` returned is a prefix of the exchanged nodes (so
    each push comes back at most once, never the stub, and one producer's pushes in its
    order); the next `Pop` does not return the stub, and returns `nullptr` only when nothing
    exchanged is left or some push has exchanged `tail_` without linking `prev.next`; and
    with no push under way, `Pop` returns the nodes left in order and then `nullptr`. -/
theorem mpsc_queue_lossless_fifo (next₀ : Node N → Option (Node N)) {s : State P N}
    (h : Trans.Reachable step (start next₀) s) :
    s.returns <+: s.exchanged.map (fun e => .item e.2) ∧
    s.queue.pop.1 ≠ some .stub ∧
    (s.queue.pop.1 = none → s.pending = [] ∨ ∃ p n prev, s.producer p = .exchanged n prev) ∧
    ((∀ p, s.producer p = .idle) →
      ∀ k, drain (s.pending.length + k) s.queue = s.pending.map some ++ List.replicate k none) := by
  obtain ⟨L, hL⟩ := Inv.reachable h
  obtain ⟨L', _, hres⟩ := hL.toShape.pop
  refine ⟨⟨items L, hL.fifo⟩, ?_, ?_, ?_⟩
  · rcases hres with ⟨hr, _⟩ | ⟨n, hr, _⟩ <;> rw [hr] <;> simp
  · intro hr
    rw [hL.pending_eq]
    rcases hres with ⟨_, _, hempty⟩ | ⟨n, hr', _⟩
    · exact hempty
    · rw [hr] at hr'
      cases hr'
  · intro hidle k
    rw [hL.pending_eq]
    exact hL.toShape.drain hidle k

/-- Producer `0` pushes `1`, producer `1` pushes `2`, `Pop` returns `1`, and producer `0`'s
    push of `3` exchanges `tail_` behind `2` without linking it, so the next `Pop` returns
    `nullptr` with `2` and `3` pending. `mpsc_queue_lossless_fifo` holds of the state reached. -/
theorem mpsc_queue_lossless_fifo_in_flight :
    ∃ s : State (Fin 2) ℕ, Trans.Reachable step (start fun _ => none) s ∧
      s.returns = [.item 1] ∧ s.pending = [.item 2, .item 3] ∧
      s.producer 0 = .exchanged 3 (.item 2) ∧ s.queue.pop.1 = none ∧
    s.returns <+: s.exchanged.map (fun e => .item e.2) ∧
    s.queue.pop.1 ≠ some .stub ∧
    (s.queue.pop.1 = none → s.pending = [] ∨ ∃ p n prev, s.producer p = .exchanged n prev) ∧
    ((∀ p, s.producer p = .idle) →
      ∀ k, drain (s.pending.length + k) s.queue = s.pending.map some ++ List.replicate k none) := by
  obtain ⟨s, hs, hend⟩ := @Trans.exists_reachable_of_run _ _ step
    (start fun _ => none : State (Fin 2) ℕ)
    [.push 0 1, .advance 0, .advance 0, .push 1 2, .advance 1, .advance 1, .pop,
      .push 0 3, .advance 0, .pop]
    (fun s => s.returns == [.item 1] && s.pending == [.item 2, .item 3] &&
      s.producer 0 == .exchanged 3 (.item 2) && s.queue.pop.1 == none) (by decide)
  simp only [Bool.and_eq_true, beq_iff_eq] at hend
  exact ⟨s, hs, hend.1.1.1, hend.1.1.2, hend.1.2, hend.2, mpsc_queue_lossless_fifo _ hs⟩

end MPSCIntrusiveQueue

end Helio
