import Helio.Io.LineReader
import Helio.Base.IoBuf

/-!
# `ReadProcFile`: key/value lines read through an `IoBuf`

`ReadProcFile(name, cb)` (`io/proc_reader.cc`) reads a file such as `/proc/self/status` into
a default `IoBuf` of `256` bytes, reading into `AppendBuffer()` and committing what `read`
returns. After each read it takes the complete lines at the front of the input. For each
line it finds the first `':'`, passes the text before it and the text after it without
leading whitespace to `cb`, and consumes the line. A `read` of `0` bytes ends the loop, and
`open` or `read` failing returns its `errno`.

The loop never grows the buffer, and `read` into an empty `AppendBuffer()` returns `0`. A line
that does not fit in what the buffer has room for is never completed, and the loop ends as if
at the end of the file. A line without `':'` ends the parse of the input without being
consumed, so every later line waits behind it until the buffer is full. The model follows
the function statement by statement on the `IoBuf` model. The kernel is an oracle: the `i`-th
`read` is answered by `answers i`. Both `while (true)` loops run on fuel that the lemmas below
show is enough.
-/

set_option autoImplicit false

namespace Helio
namespace Io

/-- `':'`. -/
def colon : UInt8 := 58

/-- `absl::ascii_isspace`: `' '`, `'\t'`, `'\n'`, `'\v'`, `'\f'` and `'\r'`. -/
def asciiIsSpace (c : UInt8) : Bool := c == 32 || (9 ≤ c && c ≤ 13)

/-- `absl::StripLeadingAsciiWhitespace`. -/
def stripLeadingAsciiWhitespace (s : List UInt8) : List UInt8 := s.dropWhile asciiIsSpace

/-- `line.find(':')`, `none` for `npos`. -/
def findColon (line : List UInt8) : Option ℕ := line.findIdx? (· == colon)

/-- `pos = line.find(':')`, then `key = line.substr(0, pos)` and
    `value = StripLeadingAsciiWhitespace(line.substr(pos + 1))`; `none` when there is no
    `':'`. -/
def keyValue (line : List UInt8) : Option (List UInt8 × List UInt8) :=
  (findColon line).map fun pos =>
    (line.take pos, stripLeadingAsciiWhitespace (line.drop (pos + 1)))

/-- The inner `while (true)` loop: the buffer after it, and the calls of `cb` it makes. -/
def parseInput : ℕ → IoBuf → Option (IoBuf × List (List UInt8 × List UInt8))
  | 0, _ => none
  | fuel + 1, b =>
    let input := b.inputBuffer
    match memchr input 0 input.length with
    | none => some (b, [])
    | some eol =>
      let line := input.take eol
      match keyValue line with
      | none => some (b, [])
      | some kv => do
        let b ← b.consumeInput (line.length + 1)
        let (b, kvs) ← parseInput fuel b
        pure (b, kv :: kvs)

/-- How the kernel answers one `read(fd, dest, n)`: `ok k` returns the next `min k n` bytes
    of the file, `0` at its end; `error e` returns `-1` with `errno = e`. -/
inductive ReadAnswer where
  | ok (k : ℕ)
  | error (errno : ℕ)
  deriving DecidableEq, Repr

/-- The outer `while (true)` loop, at its `i`-th `read` with `rest` left of the file: the
    calls of `cb`, and the `errno` of the `error_code` returned (`none` for success). -/
def readLoop (answers : ℕ → ReadAnswer) :
    ℕ → ℕ → IoBuf → List UInt8 → Option (List (List UInt8 × List UInt8) × Option ℕ)
  | 0, _, _, _ => none
  | fuel + 1, i, b, rest =>
    match answers i with
    | .error e => some ([], some e)
    | .ok k =>
      let res := min k (min b.appendLen rest.length)
      if res = 0 then some ([], none)
      else do
        let b ← b.commitWrite (rest.take res)
        let (b, kvs) ← parseInput (b.inputLen + 1) b
        let (kvs', err) ← readLoop answers fuel (i + 1) b (rest.drop res)
        pure (kvs ++ kvs', err)

/-- `ReadProcFile(name, cb)` on a file of the bytes `file`, `openErr` being `errno` when `open`
    fails: the calls of `cb`, and the `errno` of the `error_code` returned. -/
def readProcFile (openErr : Option ℕ) (file : List UInt8) (answers : ℕ → ReadAnswer) :
    Option (List (List UInt8 × List UInt8) × Option ℕ) :=
  match openErr with
  | some e => some ([], some e)
  | none => do
    -- `base::IoBuf buf;`
    let b ← IoBuf.create 256
    readLoop answers (file.length + 1) 0 b file

/-! ## What the function is meant to do -/

/-- The file of the lines `ls`, each ended by `'\n'`. -/
def joinLines (ls : List (List UInt8)) : List UInt8 := (ls.map (· ++ [10])).flatten

/-- The calls of `cb` that `ReadProcFile` is meant to make on the lines `ls`: one per line with
    a `':'`, in order. -/
def expectedCalls (ls : List (List UInt8)) : List (List UInt8 × List UInt8) :=
  ls.filterMap keyValue

/-- **The failing inputs.** `"x\nk:v\n"` in one read: the line `"x"` has no `':'`, the parse
    stops in front of it without consuming it, the next `read` finds the end of the file, and
    `cb` is never called, where `("k", "v")` is expected. `"a:b\n"` and then a line of `252`
    bytes, read as fast as the buffer allows: the first read fills the `256` bytes, `"a:b"` is
    consumed without compaction (`2 * 4 <= 256`), and the next `read` into the empty
    `AppendBuffer()` returns `0`. The long line is lost. -/
theorem read_proc_file_drops_lines :
    readProcFile none (joinLines [[120], [107, 58, 118]]) (fun _ => .ok 256) = some ([], none) ∧
      expectedCalls [[120], [107, 58, 118]] = [([107], [118])] ∧
    readProcFile none (joinLines [[97, 58, 98], [99, 58] ++ List.replicate 250 120])
        (fun _ => .ok 256) = some ([([97], [98])], none) ∧
      expectedCalls [[97, 58, 98], [99, 58] ++ List.replicate 250 120] =
        [([97], [98]), ([99], List.replicate 250 120)] := by
  refine ⟨by decide +kernel, by decide, by decide +kernel, by decide +kernel⟩

/-! ## Lines in the input -/

@[simp] theorem joinLines_nil : joinLines [] = [] := rfl

@[simp] theorem joinLines_cons (l : List UInt8) (ls : List (List UInt8)) :
    joinLines (l :: ls) = l ++ 10 :: joinLines ls := by
  simp [joinLines]

theorem memchr_eq (s : List UInt8) : memchr s 0 s.length = s.findIdx? (· == 10) := by
  simp [memchr]

theorem findIdx?_newline_of_not_mem {s : List UInt8} (h : (10 : UInt8) ∉ s) :
    s.findIdx? (· == 10) = none := by
  rw [List.findIdx?_eq_none_iff]
  intro x hx
  simp only [beq_eq_false_iff_ne, ne_eq]
  rintro rfl
  exact h hx

theorem findIdx?_newline_append {l t : List UInt8} (h : (10 : UInt8) ∉ l) :
    (l ++ 10 :: t).findIdx? (· == 10) = some l.length := by
  rw [List.findIdx?_append, findIdx?_newline_of_not_mem h, List.findIdx?_cons]
  simp

theorem keyValue_of_mem {l : List UInt8} (h : colon ∈ l) : ∃ kv, keyValue l = some kv := by
  have : (findColon l).isSome := by
    rw [findColon, List.findIdx?_isSome, List.any_eq_true]
    exact ⟨colon, h, beq_self_eq_true _⟩
  obtain ⟨pos, hpos⟩ := Option.isSome_iff_exists.mp this
  exact ⟨_, by rw [keyValue, hpos, Option.map_some]⟩

/-- Input that the rest of the file continues into the lines `l :: ls` either holds the whole
    first line and its `'\n'`, or is a piece of the first line. -/
theorem append_eq_joinLines_cons {p r l : List UInt8} {ls : List (List UInt8)}
    (hl : (10 : UInt8) ∉ l) (h : p ++ r = joinLines (l :: ls)) :
    (∃ p', p = l ++ 10 :: p' ∧ p' ++ r = joinLines ls) ∨
      ((10 : UInt8) ∉ p ∧ p.length ≤ l.length) := by
  rw [joinLines_cons] at h
  rcases List.append_eq_append_iff.mp h with ⟨a', hl', -⟩ | ⟨c', hp, hc'⟩
  · -- `p` is a prefix of `l`
    refine Or.inr ⟨fun hm => hl (hl' ▸ List.mem_append_left _ hm), ?_⟩
    rw [hl', List.length_append]
    omega
  · cases c' with
    | nil =>
      rw [List.append_nil] at hp
      exact Or.inr ⟨hp ▸ hl, hp ▸ le_refl _⟩
    | cons x c'' =>
      obtain ⟨rfl, hj⟩ := List.cons_eq_cons.mp hc'
      exact Or.inl ⟨c'', hp, hj.symm⟩

theorem newline_mem_joinLines {ls : List (List UInt8)} (h : ls ≠ []) :
    (10 : UInt8) ∈ joinLines ls := by
  obtain ⟨l, ls, rfl⟩ := List.exists_cons_of_ne_nil h
  simp

/-- `offs_` is `0` or at most half of `size_`. -/
def Half (b : IoBuf) : Prop := b.offs = 0 ∨ 2 * b.offs ≤ b.size

/-- **The inner loop on whole lines.** On input that the rest of the file continues into lines
    that each have a `':'`, the parse passes `cb` the first `j` lines and stops in front of a
    piece of a line without `'\n'`. -/
theorem parseInput_lines {ls : List (List UInt8)} (hls : ∀ l ∈ ls, 10 ∉ l ∧ colon ∈ l)
    {b : IoBuf} {rest : List UInt8} (hin : b.inputBuffer ++ rest = joinLines ls)
    (hcap : b.capacity < 512) {fuel : ℕ} (hfuel : b.inputLen < fuel) :
    ∃ b' j, parseInput fuel b = some (b', (ls.take j).filterMap keyValue) ∧
      b'.inputBuffer ++ rest = joinLines (ls.drop j) ∧ (10 : UInt8) ∉ b'.inputBuffer ∧
      b'.capacity = b.capacity ∧ (Half b → Half b') := by
  obtain ⟨fuel, rfl⟩ : ∃ f, fuel = f + 1 := ⟨fuel - 1, by omega⟩
  induction ls generalizing b fuel with
  | nil =>
    have hnil := (List.append_eq_nil_iff.mp hin).1
    refine ⟨b, 0, ?_, hin, by rw [hnil]; exact List.not_mem_nil, rfl, id⟩
    simp only [parseInput, memchr_eq, hnil, List.findIdx?_nil]
    rfl
  | cons l ls ih =>
    obtain ⟨hl, hcolon⟩ := hls l List.mem_cons_self
    rcases append_eq_joinLines_cons hl hin with ⟨p', hp, hp'⟩ | ⟨hno, -⟩
    · -- a whole line: `cb` gets it and it is consumed
      obtain ⟨kv, hkv⟩ := keyValue_of_mem hcolon
      have hlen : l.length + 1 ≤ b.inputLen := by
        rw [← IoBuf.length_inputBuffer, hp]
        simp
      have hline : b.inputBuffer.take l.length = l := by rw [hp, List.take_left' rfl]
      have hfit : b.offs + (l.length + 1) < 2 ^ 64 := by
        have := b.offs_le_size; have := b.size_le_capacity; unfold IoBuf.inputLen at hlen; omega
      obtain ⟨b₁, hb₁, hin₁⟩ := b.consumeInput_spec hfit
      have hdrop : b₁.inputBuffer = p' := by
        rw [hin₁, hp, ← List.drop_drop, List.drop_left]
        rfl
      obtain ⟨hhalf₁, hcap₁⟩ := b.consumeInput_sizes hb₁ (by have := b.size_le_capacity; omega)
      have hfuel₁ : b₁.inputLen < fuel := by
        rw [← IoBuf.length_inputBuffer, hdrop]
        have : b.inputBuffer.length = l.length + 1 + p'.length := by rw [hp]; simp; omega
        rw [IoBuf.length_inputBuffer] at this
        omega
      obtain ⟨fuel', rfl⟩ : ∃ f, fuel = f + 1 := ⟨fuel - 1, by omega⟩
      obtain ⟨b', j, hb', hin', hnl', hcap', hhalf'⟩ :=
        ih (fun l' hl' => hls l' (List.mem_cons_of_mem l hl')) (hdrop ▸ hp') (hcap₁ ▸ hcap)
          fuel' hfuel₁
      refine ⟨b', j + 1, ?_, hin', hnl', hcap'.trans hcap₁, fun _ => hhalf' hhalf₁⟩
      rw [parseInput]
      simp only [memchr_eq, hp, findIdx?_newline_append hl]
      rw [← hp, hline, hkv]
      simp only [hb₁, hb', Option.bind_eq_bind, Option.bind_some]
      simp [List.take_succ_cons, hkv]
    · -- a piece of a line: the parse stops
      refine ⟨b, 0, ?_, hin, hno, rfl, id⟩
      simp only [parseInput, memchr_eq, findIdx?_newline_of_not_mem hno]
      rfl

/-- With lines shorter than `128` bytes the input is shorter than `128` bytes, and with
    `offs_` at most half of `size_` a buffer of `256` bytes has room left. -/
theorem appendLen_pos {b : IoBuf} (hcap : b.capacity = 256) (hhalf : Half b)
    (hshort : b.inputLen < 128) : 0 < b.appendLen := by
  have := b.offs_le_size
  unfold IoBuf.appendLen
  unfold IoBuf.inputLen at hshort
  unfold Half at hhalf
  omega

/-- **The outer loop on short lines.** With the rest of the file continuing the input into
    lines that each have a `':'` and are shorter than `128` bytes, and reads that return at
    least a byte while there is one, the loop passes `cb` a prefix of the expected calls, all
    of them unless a `read` fails, and fails only with an `errno` a `read` returned. -/
theorem readLoop_lines {answers : ℕ → ReadAnswer} (hpos : ∀ i k, answers i = .ok k → 0 < k) :
    ∀ {fuel i : ℕ} {ls : List (List UInt8)} {b : IoBuf} {rest : List UInt8},
      (∀ l ∈ ls, 10 ∉ l ∧ colon ∈ l ∧ l.length < 128) →
      b.inputBuffer ++ rest = joinLines ls → (10 : UInt8) ∉ b.inputBuffer →
      b.capacity = 256 → Half b → rest.length < fuel →
      ∃ kvs err, readLoop answers fuel i b rest = some (kvs, err) ∧ kvs <+: expectedCalls ls ∧
        (∀ e, err = some e → ∃ j, answers j = .error e) ∧
        ((∀ j e, answers j ≠ .error e) → err = none ∧ kvs = expectedCalls ls)
  | 0, _, _, _, _, _, _, _, _, _, hfuel => absurd hfuel (Nat.not_lt_zero _)
  | fuel + 1, i, ls, b, rest, hls, hin, hnl, hcap, hhalf, hfuel => by
    cases hans : answers i with
    | error e =>
      refine ⟨[], some e, by rw [readLoop, hans], List.nil_prefix, ?_, fun hno => ?_⟩
      · intro e' he'
        cases he'
        exact ⟨i, hans⟩
      · exact absurd hans (hno i e)
    | ok k =>
      have hk := hpos i k hans
      by_cases hrest : rest = []
      · -- the end of the file: every line has been passed on
        subst hrest
        have hls0 : ls = [] := by
          by_contra hne
          rw [List.append_nil] at hin
          exact hnl (hin ▸ newline_mem_joinLines hne)
        subst hls0
        refine ⟨[], none, ?_, List.nil_prefix, fun _ he => (Option.some_ne_none _ he.symm).elim,
          fun _ => ⟨rfl, rfl⟩⟩
        rw [readLoop, hans]
        simp
      · -- a piece of the first line is buffered, so there is room to read into
        have hls0 : ls ≠ [] := by
          rintro rfl
          exact hrest (List.append_eq_nil_iff.mp hin).2
        obtain ⟨l, ls', rfl⟩ := List.exists_cons_of_ne_nil hls0
        obtain ⟨-, -, hl128⟩ := hls l List.mem_cons_self
        have hshort : b.inputLen < 128 := by
          rcases append_eq_joinLines_cons (hls l List.mem_cons_self).1 hin with
            ⟨p', hp, -⟩ | ⟨-, hle⟩
          · exact absurd (hp ▸ List.mem_append_right l List.mem_cons_self) hnl
          · rw [IoBuf.length_inputBuffer] at hle
            omega
        have hroom := appendLen_pos hcap hhalf hshort
        have hlen : 0 < rest.length := List.length_pos_of_ne_nil hrest
        have hres : min k (min b.appendLen rest.length) ≠ 0 := by omega
        set res := min k (min b.appendLen rest.length) with hres_def
        -- `read` writes `res` bytes into `AppendBuffer()`, and they are committed
        have hfits : (rest.take res).length ≤ b.appendLen := by
          rw [List.length_take]
          omega
        obtain ⟨b₁, hb₁, hin₁⟩ := b.commitWrite_spec hfits
        obtain ⟨hoffs₁, hsize₁, hcap₁⟩ := b.commitWrite_sizes hb₁
        have hhalf₁ : Half b₁ := by
          unfold Half at hhalf ⊢
          omega
        have hjoin₁ : b₁.inputBuffer ++ rest.drop res = joinLines (l :: ls') := by
          rw [hin₁, List.append_assoc, List.take_append_drop, hin]
        obtain ⟨b₂, j, hb₂, hin₂, hnl₂, hcap₂, hhalf₂⟩ :=
          parseInput_lines (fun l' hl' => ⟨(hls l' hl').1, (hls l' hl').2.1⟩) hjoin₁
            (by omega) (Nat.lt_succ_self _)
        obtain ⟨kvs, err, hrun, hpre, herr, hall⟩ :=
          readLoop_lines hpos (i := i + 1)
            (fun l' hl' => hls l' (List.mem_of_mem_drop hl')) hin₂ hnl₂ (by omega)
            (hhalf₂ hhalf₁) (show (rest.drop res).length < fuel by rw [List.length_drop]; omega)
        have hsplit : expectedCalls (l :: ls') =
            ((l :: ls').take j).filterMap keyValue ++ expectedCalls ((l :: ls').drop j) := by
          rw [expectedCalls, expectedCalls, ← List.filterMap_append, List.take_append_drop]
        refine ⟨((l :: ls').take j).filterMap keyValue ++ kvs, err, ?_, ?_, herr, fun hno => ?_⟩
        · rw [readLoop, hans]
          dsimp only
          rw [← hres_def, if_neg hres]
          simp only [hb₁, hb₂, hrun, Option.bind_eq_bind, Option.bind_some]
          rfl
        · rw [hsplit]
          exact (List.prefix_append_right_inj _).mpr hpre
        · obtain ⟨herr', hkvs⟩ := hall hno
          exact ⟨herr', by rw [hsplit, hkvs]⟩

/-- `base::IoBuf buf;`: an empty buffer of `256` bytes. -/
theorem create_default :
    ∃ b, IoBuf.create 256 = some b ∧ b.inputBuffer = [] ∧ b.offs = 0 ∧ b.capacity = 256 :=
  ⟨_, rfl, rfl, rfl, by decide⟩

/-- **What `ReadProcFile` gets right.** On a file of lines that each have a `':'` and are
    shorter than `128` bytes, and with reads that return at least a byte while there is one,
    `cb` gets a prefix of the expected calls, all of them unless a `read` fails, and an error
    is returned only with an `errno` a `read` returned. -/
theorem read_proc_file_short_lines (ls : List (List UInt8))
    (hls : ∀ l ∈ ls, 10 ∉ l ∧ colon ∈ l ∧ l.length < 128) (answers : ℕ → ReadAnswer)
    (hpos : ∀ i k, answers i = .ok k → 0 < k) :
    ∃ kvs err, readProcFile none (joinLines ls) answers = some (kvs, err) ∧
      kvs <+: expectedCalls ls ∧ (∀ e, err = some e → ∃ i, answers i = .error e) ∧
      ((∀ i e, answers i ≠ .error e) → err = none ∧ kvs = expectedCalls ls) := by
  obtain ⟨b, hb, hin, hoffs, hcap⟩ := create_default
  obtain ⟨kvs, err, hrun, hrest⟩ := readLoop_lines hpos (i := 0) hls
    (by rw [hin, List.nil_append]) (by rw [hin]; exact List.not_mem_nil) hcap (Or.inl hoffs)
    (Nat.lt_succ_self (joinLines ls).length)
  refine ⟨kvs, err, ?_, hrest⟩
  rw [readProcFile, Option.bind_eq_bind, hb, Option.bind_some, hrun]

/-- `"k: v\na:b\n"` read three bytes at a time, so that both lines arrive in pieces: `cb`
    gets both pairs, the space after the first `':'` stripped. -/
theorem read_proc_file_short_lines_split :
    readProcFile none (joinLines [[107, 58, 32, 118], [97, 58, 98]]) (fun _ => .ok 3) =
      some ([([107], [118]), ([97], [98])], none) := by
  obtain ⟨kvs, err, hrun, -, -, hall⟩ := read_proc_file_short_lines
    [[107, 58, 32, 118], [97, 58, 98]] (by decide) (fun _ => .ok 3)
    (fun _ _ h => by cases h; decide)
  obtain ⟨rfl, hkvs⟩ := hall fun _ _ => by simp
  rw [hrun, hkvs]
  decide

end Io
end Helio
