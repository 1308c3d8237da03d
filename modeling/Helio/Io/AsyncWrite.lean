import Helio.Io.Sink

/-!
# `AsyncSink::AsyncWrite`: a whole `iovec` array by asynchronous writes

`AsyncSink::AsyncWrite(v, len, cb)` (`io/io.cc`) copies `v` into an `AsyncWriteState` and
issues `AsyncWriteSome` on all of it. Each completion runs `OnCb(res)`. An error goes to `cb`
and the state is deleted. A count `sz` first skips the entries it covers whole
(`while (cur->iov_len <= sz)`), and reaching `arr.end()` there is success. Otherwise it
advances the entry it ends in and issues `AsyncWriteSome` again from `cur`.

The model keeps an `iovec` as its bytes, as in `Sink`, and the array from `cur` on as the
current entry and the entries after it. The sink is an oracle: its `i`-th completion has the
result `answers i`. A run is followed for its first `fuel` completions. With `len = 0`,
`OnCb` of a count reads `*cur` at `arr.end()`, which is undefined (`none`).

What `AsyncWrite` is for is `specRun`. It writes the bytes still to go, one completion's
count at a time, until an error or until none are left, and then it calls `cb` once. Every
run within the contract refines it, request for request and call for call.
-/

set_option autoImplicit false

namespace Helio
namespace Io

/-- What one `OnCb` does: `finish e` calls `cb` with `e` (`none` for the empty `error_code`)
    and deletes the state; `issue e rest` calls `AsyncWriteSome` on the entries from `cur`,
    `e` being `*cur`. -/
inductive Reply where
  | finish (err : Option Errc)
  | issue (e : Iovec) (rest : List Iovec)

/-- The `while (cur->iov_len <= sz)` loop of `OnCb`, `e` being `*cur` and `rest` the entries
    after it, and what follows it. -/
def skipDone : ℕ → Iovec → List Iovec → Reply
  | sz, e, rest =>
    if e.length ≤ sz then
      match rest with
      -- `cur == arr.end()`: everything is written
      | [] => .finish none
      | e' :: rest' => skipDone (sz - e.length) e' rest'
    -- `cur->iov_len -= sz; cur->iov_base = base + sz`
    else .issue (e.drop sz) rest

/-- `AsyncWriteState::OnCb(res)`. -/
def onCb (e : Iovec) (rest : List Iovec) : Result ℕ → Reply
  | .error err => .finish (some err)
  | .ok sz => skipDone sz e rest

/-- The first `fuel` completions of an `AsyncWriteState` whose outstanding request is the
    entries `e :: rest`, the `i`-th completion having the result `answers i`: the requests
    from this one on, and the calls of `cb`. -/
def runFrom (answers : ℕ → Result ℕ) :
    ℕ → ℕ → Iovec → List Iovec → List (List Iovec) × List (Option Errc)
  | 0, _, e, rest => ([e :: rest], [])
  | fuel + 1, i, e, rest =>
    match onCb e rest (answers i) with
    | .finish err => ([e :: rest], [err])
    | .issue e' rest' =>
      let (reqs, cbs) := runFrom answers fuel (i + 1) e' rest'
      ((e :: rest) :: reqs, cbs)

/-- `AsyncSink::AsyncWrite(v, len, cb)` and its first `fuel` completions: the requests and the
    calls of `cb`. -/
def asyncWrite (answers : ℕ → Result ℕ) (fuel : ℕ) :
    List Iovec → Option (List (List Iovec) × List (Option Errc))
  | e :: rest => some (runFrom answers fuel 0 e rest)
  | [] =>
    match fuel, answers 0 with
    | 0, _ => some ([[]], [])
    | _ + 1, .error err => some ([[]], [some err])
    -- `cur->iov_len` at `arr.end()`
    | _ + 1, .ok _ => none

/-! ## What it is for -/

/-- The bytes the first `i` completions wrote. -/
def written (answers : ℕ → Result ℕ) (i : ℕ) : ℕ :=
  ((List.range i).map fun j => (answers j).toOption.getD 0).sum

/-- Writing the bytes `left`, the `i`-th completion having the result `answers i`, for `fuel`
    completions: the bytes still to go at each request, and the calls of `cb`. -/
def specRun (answers : ℕ → Result ℕ) :
    ℕ → ℕ → List UInt8 → List (List UInt8) × List (Option Errc)
  | 0, _, left => ([left], [])
  | fuel + 1, i, left =>
    match answers i with
    | .error e => ([left], [some e])
    | .ok n =>
      if left.length ≤ n then ([left], [none])
      else
        let (reqs, cbs) := specRun answers fuel (i + 1) (left.drop n)
        (left :: reqs, cbs)

/-- The contract of the sink: every completion of a request that is made, that is of one after
    successful completions that left bytes to write, or of the first, is an error or a count
    no larger than the bytes requested and positive when some are. -/
def Fits (answers : ℕ → Result ℕ) (total : ℕ) : Prop :=
  ∀ i, (∀ j < i, ∃ k, answers j = .ok k) → (i = 0 ∨ written answers i < total) →
    ∀ n, answers i = .ok n → written answers i + n ≤ total ∧ (written answers i < total → 0 < n)

/-! ## The loop of `OnCb` -/

/-- A count that covers every entry from `cur` on ends the write. -/
theorem skipDone_finish : ∀ {rest : List Iovec} {sz : ℕ} {e : Iovec},
    (e :: rest).flatten.length ≤ sz → skipDone sz e rest = .finish none
  | [], sz, e, h => by
    rw [skipDone, if_pos (by simpa using h)]
  | e' :: rest, sz, e, h => by
    have he : e.length ≤ sz := by
      simp only [List.flatten_cons, List.length_append] at h
      omega
    rw [skipDone, if_pos he]
    exact skipDone_finish (by simp only [List.flatten_cons, List.length_append] at h ⊢; omega)

/-- A count short of the end leaves a request of exactly the bytes after it, from an entry
    that is not empty. -/
theorem skipDone_issue : ∀ {rest : List Iovec} {sz : ℕ} {e : Iovec},
    sz < (e :: rest).flatten.length →
      ∃ e' rest', skipDone sz e rest = .issue e' rest' ∧
        (e' :: rest').flatten = (e :: rest).flatten.drop sz
  | [], sz, e, h => by
    have he : ¬e.length ≤ sz := by simpa using h
    exact ⟨_, _, by rw [skipDone, if_neg he], by simp⟩
  | e' :: rest, sz, e, h => by
    by_cases he : e.length ≤ sz
    · -- `*cur` is written whole: the rest of the count goes on to the next entry
      have hlt : sz - e.length < (e' :: rest).flatten.length := by
        simp only [List.flatten_cons, List.length_append] at h ⊢
        omega
      obtain ⟨e'', rest'', hskip, hflat⟩ := skipDone_issue hlt
      refine ⟨e'', rest'', by rw [skipDone, if_pos he]; exact hskip, ?_⟩
      rw [hflat, List.flatten_cons (l := e), List.drop_append, List.drop_eq_nil_of_le he,
        List.nil_append]
    · refine ⟨_, _, by rw [skipDone, if_neg he], ?_⟩
      rw [List.flatten_cons, List.flatten_cons (l := e), List.drop_append,
        Nat.sub_eq_zero_of_le (Nat.le_of_not_le he), List.drop_zero]

/-! ## Refinement -/

theorem specRun_error {answers : ℕ → Result ℕ} {fuel i : ℕ} {e : Errc} {left : List UInt8}
    (h : answers i = .error e) : specRun answers (fuel + 1) i left = ([left], [some e]) := by
  rw [specRun, h]

theorem specRun_done {answers : ℕ → Result ℕ} {fuel i n : ℕ} {left : List UInt8}
    (h : answers i = .ok n) (hn : left.length ≤ n) :
    specRun answers (fuel + 1) i left = ([left], [none]) := by
  rw [specRun, h]
  simp only [if_pos hn]

theorem specRun_more {answers : ℕ → Result ℕ} {fuel i n : ℕ} {left : List UInt8}
    (h : answers i = .ok n) (hn : n < left.length) :
    specRun answers (fuel + 1) i left =
      (left :: (specRun answers fuel (i + 1) (left.drop n)).1,
        (specRun answers fuel (i + 1) (left.drop n)).2) := by
  rw [specRun, h]
  simp only [if_neg (Nat.not_le_of_lt hn)]

/-- **`OnCb` refines the writer.** Every run, with any results, makes the requests of
    `specRun` and calls `cb` as it does. -/
theorem runFrom_refines (answers : ℕ → Result ℕ) :
    ∀ (fuel i : ℕ) (e : Iovec) (rest : List Iovec),
      ((runFrom answers fuel i e rest).1.map List.flatten, (runFrom answers fuel i e rest).2) =
        specRun answers fuel i (e :: rest).flatten
  | 0, _, _, _ => rfl
  | fuel + 1, i, e, rest => by
    cases hans : answers i with
    | error err => simp [runFrom, specRun, onCb, hans]
    | ok sz =>
      by_cases hsz : (e :: rest).flatten.length ≤ sz
      · simp only [specRun, hans, if_pos hsz]
        simp [runFrom, onCb, hans, skipDone_finish hsz]
      · obtain ⟨e', rest', hskip, hflat⟩ := skipDone_issue (Nat.lt_of_not_le hsz)
        have ih := runFrom_refines answers fuel (i + 1) e' rest'
        rw [specRun_more hans (Nat.lt_of_not_le hsz), ← hflat, ← ih]
        simp [runFrom, onCb, hans, hskip]

/-! ## The writer -/

section Writer

variable {answers : ℕ → Result ℕ}

theorem written_succ (answers : ℕ → Result ℕ) (i : ℕ) :
    written answers (i + 1) = written answers i + (answers i).toOption.getD 0 := by
  simp [written, List.range_succ]

theorem written_ok {i n : ℕ} (h : answers i = .ok n) :
    written answers (i + 1) = written answers i + n := by
  rw [written_succ, h]
  rfl

/-- Every request of the writer is the bytes after those the completions before it wrote. -/
theorem specRun_requests (whole : List UInt8) : ∀ (fuel i : ℕ),
    (specRun answers fuel i (whole.drop (written answers i))).1 =
      (List.range (specRun answers fuel i (whole.drop (written answers i))).1.length).map
        fun j => whole.drop (written answers (i + j))
  | 0, i => rfl
  | fuel + 1, i => by
    cases hans : answers i with
    | error e => rw [specRun_error hans]; rfl
    | ok n =>
      by_cases hn : (whole.drop (written answers i)).length ≤ n
      · rw [specRun_done hans hn]
        rfl
      · -- the next request starts `n` bytes further on
        have hnext : (whole.drop (written answers i)).drop n =
            whole.drop (written answers (i + 1)) := by
          rw [List.drop_drop, written_ok hans, Nat.add_comm]
        have ih := specRun_requests whole fuel (i + 1)
        rw [specRun_more hans (Nat.lt_of_not_le hn), hnext, List.length_cons,
          List.range_succ_eq_map, List.map_cons, List.map_map]
        conv_lhs => rw [ih]
        dsimp only
        congr 1
        apply List.map_congr_left
        intro j _
        simp only [Function.comp_apply, Nat.add_assoc, Nat.add_comm 1 j]

/-- How the writer's run stands after `fuel` completions: a request outstanding after all of
    them, or `cb` called once, after the completion of its last request, with the error of that
    completion or with success after a count. -/
theorem specRun_shape : ∀ (fuel i : ℕ) (left : List UInt8),
    ((specRun answers fuel i left).2 = [] ∧ (specRun answers fuel i left).1.length = fuel + 1) ∨
      ∃ err, (specRun answers fuel i left).2 = [err] ∧
        (specRun answers fuel i left).1.length ≤ fuel ∧
        (∀ j < (specRun answers fuel i left).1.length - 1, ∃ k, answers (i + j) = .ok k) ∧
        (err = none → ∃ k, answers (i + (specRun answers fuel i left).1.length - 1) = .ok k) ∧
        (∀ e, err = some e →
          answers (i + (specRun answers fuel i left).1.length - 1) = .error e)
  | 0, _, _ => Or.inl ⟨rfl, rfl⟩
  | fuel + 1, i, left => by
    cases hans : answers i with
    | error e =>
      rw [specRun_error hans]
      refine Or.inr ⟨some e, rfl, by simp, by simp, by simp, ?_⟩
      simpa using hans
    | ok n =>
      by_cases hn : left.length ≤ n
      · rw [specRun_done hans hn]
        exact Or.inr ⟨none, rfl, by simp, by simp, fun _ => ⟨n, by simpa using hans⟩, by simp⟩
      · rw [specRun_more hans (Nat.lt_of_not_le hn)]
        rcases specRun_shape fuel (i + 1) (left.drop n) with ⟨hcb, hlen⟩ | ⟨err, hcb, hlen, hok, hdone, herr⟩
        · exact Or.inl ⟨hcb, by rw [List.length_cons, hlen]⟩
        · -- the run goes on from the next completion, one request later
          refine Or.inr ⟨err, hcb, by rw [List.length_cons]; omega, fun j hj => ?_, fun h => ?_,
            fun e h => ?_⟩
          · rcases j with _ | j
            · exact ⟨n, hans⟩
            · obtain ⟨k, hk⟩ := hok j (by rw [List.length_cons] at hj; omega)
              exact ⟨k, by rw [← hk]; congr 1; omega⟩
          · obtain ⟨k, hk⟩ := hdone h
            exact ⟨k, by rw [← hk, List.length_cons]; congr 1; omega⟩
          · rw [← herr e h, List.length_cons]
            congr 1
            omega

variable {total : ℕ} (hfit : Fits answers total)
include hfit

/-- A successful end comes when the count reaches the total. -/
theorem specRun_success (whole : List UInt8) (hwhole : whole.length = total) :
    ∀ (fuel i : ℕ), (∀ j < i, ∃ k, answers j = .ok k) → (i = 0 ∨ written answers i < total) →
      written answers i ≤ total →
      (specRun answers fuel i (whole.drop (written answers i))).2 = [none] →
      written answers (i + (specRun answers fuel i (whole.drop (written answers i))).1.length) =
        total
  | 0, _, _, _, _, h => by simp [specRun] at h
  | fuel + 1, i, hok, hmade, hle, h => by
    cases hans : answers i with
    | error e => simp [specRun_error hans] at h
    | ok n =>
      obtain ⟨hfits, -⟩ := hfit i hok hmade n hans
      have hleft : (whole.drop (written answers i)).length = total - written answers i := by
        rw [List.length_drop, hwhole]
      by_cases hn : (whole.drop (written answers i)).length ≤ n
      · rw [specRun_done hans hn, List.length_singleton, written_ok hans]
        omega
      · -- the count falls short: the rest of the run ends it
        have hnext : (whole.drop (written answers i)).drop n =
            whole.drop (written answers (i + 1)) := by
          rw [List.drop_drop, written_ok hans, Nat.add_comm]
        rw [specRun_more hans (Nat.lt_of_not_le hn), hnext] at h ⊢
        have ih := specRun_success whole hwhole fuel (i + 1)
          (fun j hj => if hji : j < i then hok j hji else ⟨n, by rw [show j = i by omega]; exact hans⟩)
          (Or.inr (by rw [written_ok hans]; omega)) (by rw [written_ok hans]; omega) h
        rw [List.length_cons, ← ih]
        congr 1
        omega

/-- The writer calls `cb` by the completion after the `total`-th: each successful completion
    before it writes at least a byte. -/
theorem specRun_finishes (whole : List UInt8) (hwhole : whole.length = total) :
    ∀ (fuel i : ℕ), (∀ j < i, ∃ k, answers j = .ok k) → (i = 0 ∨ written answers i < total) →
      written answers i ≤ total → total - written answers i < fuel →
      (specRun answers fuel i (whole.drop (written answers i))).2 ≠ []
  | 0, _, _, _, _, h => absurd h (Nat.not_lt_zero _)
  | fuel + 1, i, hok, hmade, hle, hfuel => by
    cases hans : answers i with
    | error e => simp [specRun_error hans]
    | ok n =>
      obtain ⟨hfits, hpos⟩ := hfit i hok hmade n hans
      have hleft : (whole.drop (written answers i)).length = total - written answers i := by
        rw [List.length_drop, hwhole]
      by_cases hn : (whole.drop (written answers i)).length ≤ n
      · simp [specRun_done hans hn]
      · have hnext : (whole.drop (written answers i)).drop n =
            whole.drop (written answers (i + 1)) := by
          rw [List.drop_drop, written_ok hans, Nat.add_comm]
        have hn0 := hpos (by omega)
        rw [specRun_more hans (Nat.lt_of_not_le hn), hnext]
        exact specRun_finishes whole hwhole fuel (i + 1)
          (fun j hj => if hji : j < i then hok j hji else ⟨n, by rw [show j = i by omega]; exact hans⟩)
          (Or.inr (by rw [written_ok hans]; omega)) (by rw [written_ok hans]; omega)
          (by rw [written_ok hans]; omega)

end Writer

/-! ## `AsyncWrite` -/

end Io
end Helio
