import Mathlib.Data.BitVec
import OperateSystem.Core.ByteStore
import OperateSystem.Core.Words

/-!
# `xargs`

`xargs.c`: every line of the input is split at its spaces, and the words are appended to
the arguments of `xargs` itself.  The child that does it walks over the line once, with a
write pointer `q` and an argument index `j`.  Every access to the line buffer, to the
argument vector and to the token buffers is checked.

`gets`, `malloc`, `fork` and `exec` are not part of the sources.  `malloc` gives a new
buffer of 512 bytes; `exec` is given the strings that the argument vector points to.
-/

namespace OperateSystem.Xargs

open OperateSystem.Words OperateSystem.ByteStore

abbrev Byte := BitVec 8

def space : Byte := 32
def newline : Byte := 10
def nul : Byte := 0

/-- `sizeof stdin`, and the size of a token buffer. -/
def bufSize : ℕ := 512

/-- An access to memory that is not there. -/
inductive Fault
  | stdin (i : Int)
  | store
  | argv (j : ℕ)
  | vector (k : ℕ)
  | string
  deriving DecidableEq

/-- What an element of `Argv` and `q` may hold. -/
inductive Pointer
  | wild
  | null
  | arg (k : ℕ)
  | token (buf ofs : ℕ)
  deriving DecidableEq

/-- `q++`. -/
def Pointer.next : Pointer → Pointer
  | .token buf ofs => .token buf (ofs + 1)
  | p => p

/-- The memory of the child: the vector, the token buffers with the number of those that
`malloc` has given, and the locals. -/
structure State where
  Argv : ℕ → Pointer
  heap : ℕ → ℕ → Byte
  allocated : ℕ
  q : Pointer
  j : ℕ

/-- `stdin[i]`. -/
def peek (stdin : ℕ → Byte) (i : Int) : Except Fault Byte :=
  if 0 ≤ i ∧ i < bufSize then .ok (stdin i.toNat) else .error (.stdin i)

/-- `*q = c`. -/
def State.poke (st : State) (c : Byte) : Except Fault State :=
  match st.q with
  | .token buf ofs =>
      if buf < st.allocated ∧ ofs < bufSize then
        .ok { st with heap := Function.update st.heap buf (Function.update (st.heap buf) ofs c) }
      else .error .store
  | _ => .error .store

/-- `Argv[j] = p`. -/
def State.setArg (maxArg : ℕ) (st : State) (p : Pointer) : Except Fault State :=
  if st.j < maxArg then .ok { st with Argv := Function.update st.Argv st.j p }
  else .error (.argv st.j)

/-- `Argv[j] = q = malloc(512)`. -/
def State.newToken (maxArg : ℕ) (st : State) : Except Fault State := do
  let st ← st.setArg maxArg (.token st.allocated 0)
  return { st with q := .token st.allocated 0, allocated := st.allocated + 1 }

/-- `q++; *q = '\0'; j++`. -/
def State.endToken (st : State) : Except Fault State := do
  let st ← { st with q := st.q.next }.poke nul
  return { st with j := st.j + 1 }

/-- The loop that copies `argv[1]`, ..., `argv[argc - 1]`, for `n` more arguments from `i` on. -/
def copyArgs (maxArg : ℕ) : (n i : ℕ) → (ℕ → Pointer) → Except Fault (ℕ → Pointer)
  | 0, _, Argv => .ok Argv
  | n + 1, i, Argv =>
      if i - 1 < maxArg then copyArgs maxArg n (i + 1) (Function.update Argv (i - 1) (.arg i))
      else .error (.argv (i - 1))

/-- The loop that looks for the first character other than a space, for `n` more characters
from `i` on. -/
def findStart (stdin : ℕ → Byte) : (n i : ℕ) → Except Fault ℕ
  | 0, _ => .ok 0
  | n + 1, i => do
      let c ← peek stdin i
      if c ≠ space then return i else findStart stdin n (i + 1)

/-- One turn of the loop over the line.  The result tells whether the loop goes on. -/
def splitStep (maxArg : ℕ) (stdin : ℕ → Byte) (start i : ℕ) (st : State) :
    Except Fault (Bool × State) := do
  let c ← peek stdin i
  if c ≠ space ∧ c ≠ newline ∧ c ≠ nul then
    let first ← (if i = start then .ok true else do
      let before ← peek stdin (i - 1)
      return decide (before = space))
    let st ← (if first then st.newToken maxArg else .ok { st with q := st.q.next })
    let st ← st.poke c
    return (true, st)
  else if c = space then
    let after ← peek stdin (i + 1)
    let st ← (if after ≠ space then st.endToken else .ok st)
    return (true, st)
  else
    let before ← peek stdin (i - 1)
    let st ← (if before ≠ space then st.endToken else .ok st)
    let st ← st.setArg maxArg .null
    return (false, st)

/-- The loop over the line, for `n` more characters from `i` on. -/
def splitLoop (maxArg : ℕ) (stdin : ℕ → Byte) (start : ℕ) : (n i : ℕ) → State →
    Except Fault State
  | 0, _, st => .ok st
  | n + 1, i, st => do
      let (more, st) ← splitStep maxArg stdin start i st
      if more then splitLoop maxArg stdin start n (i + 1) st else return st

/-- The string that starts at `ofs` in a token buffer, for `n` more bytes. -/
def cstring (buf : ℕ → Byte) : (n ofs : ℕ) → Except Fault (List Byte)
  | 0, _ => .error .string
  | n + 1, ofs => if buf ofs = nul then .ok [] else do
      let rest ← cstring buf n (ofs + 1)
      return buf ofs :: rest

/-- The string that a pointer of the vector points to. -/
def State.string (st : State) (argv : List (List Byte)) : Pointer → Except Fault (List Byte)
  | .arg k => if h : k < argv.length then .ok argv[k] else .error .string
  | .token buf ofs => if buf < st.allocated then cstring (st.heap buf) (bufSize - ofs) ofs
      else .error .string
  | _ => .error .string

/-- What `exec(Argv[0], Argv)` is given: the strings up to the null pointer, from `Argv[k]` on,
for `n` more elements. -/
def State.vector (st : State) (argv : List (List Byte)) : (n k : ℕ) →
    Except Fault (List (List Byte))
  | 0, k => .error (.vector k)
  | n + 1, k => if st.Argv k = .null then .ok [] else do
      let word ← st.string argv (st.Argv k)
      let rest ← st.vector argv n (k + 1)
      return word :: rest

/-- The child: the vector that it gives to `exec`. -/
def child (maxArg : ℕ) (argv : List (List Byte)) (stdin : ℕ → Byte) (start : ℕ) (st : State) :
    Except Fault (List (List Byte)) := do
  let j := argv.length - 1
  let q ← (if j < maxArg then .ok (st.Argv j) else .error (.argv j))
  let st ← splitLoop maxArg stdin start (bufSize - start) start { st with q := q, j := j }
  st.vector argv maxArg 0

/-- A turn of the loop over the lines, with the line in `stdin`: the vector that the child gives
to `exec`, or none at the end of the input. -/
def runLine (maxArg : ℕ) (argv : List (List Byte)) (stdin : ℕ → Byte) (st : State) :
    Except Fault (Option (List (List Byte))) := do
  let start ← findStart stdin bufSize 0
  let c ← peek stdin start
  if c = nul then return none
  else
    let vector ← child maxArg argv stdin start st
    return some vector

/-- `main`, with the line buffer after each call of `gets`: the vectors given to `exec`, one
for each line.  Without arguments there is a message only. -/
def main (maxArg : ℕ) (argv : List (List Byte)) (st : State) (lines : List (ℕ → Byte)) :
    Except Fault (List (List (List Byte))) :=
  if argv.length ≤ 1 then .ok []
  else do
    let Argv ← copyArgs maxArg (argv.length - 1) 1 st.Argv
    loop { st with Argv := Argv } lines
where
  /-- The loop over the lines; every child has a copy of the memory of its parent. -/
  loop (st : State) : List (ℕ → Byte) → Except Fault (List (List (List Byte)))
    | [] => .ok []
    | stdin :: lines => do
        let some vector ← runLine maxArg argv stdin st | return []
        let vectors ← loop st lines
        return vector :: vectors

/-- From index `i` on the buffer holds `rest` and the newline. -/
def Reads (stdin : ℕ → Byte) : (i : ℕ) → (rest : List Byte) → Prop
  | i, [] => stdin i = newline
  | i, c :: rest => stdin i = c ∧ Reads stdin (i + 1) rest

/-- What `gets` stores for a line. -/
structure Stored (stdin : ℕ → Byte) (line : List Byte) : Prop where
  length_le : line.length ≤ 510
  noNul : nul ∉ line
  noNewline : newline ∉ line
  reads : Reads stdin 0 line
  ended : stdin (line.length + 1) = nul

section Basics

variable {stdin : ℕ → Byte} {buf : ℕ → Byte}

theorem ok_bind {α β : Type} (a : α) (f : α → Except Fault β) : (Except.ok a >>= f) = f a := rfl

theorem peek_ok {i : Int} {k : ℕ} (hi : i = k) (hk : k < 512) : peek stdin i = .ok (stdin k) := by
  subst hi
  rw [peek, if_pos ⟨Int.natCast_nonneg k, by exact_mod_cast hk⟩, Int.toNat_natCast]

/-- A string ends at its NUL. -/
theorem cstring_eq {word : List Byte} {n ofs : ℕ} (hword : nul ∉ word)
    (hslice : slice buf ofs (word.length + 1) = word ++ [nul]) (hn : word.length < n) :
    cstring buf n ofs = .ok word := by
  induction word generalizing n ofs with
  | nil =>
      obtain ⟨n, rfl⟩ := Nat.exists_eq_add_of_le' (show 1 ≤ n from hn)
      rw [cstring, if_pos]
      simpa [slice] using hslice
  | cons c word ih =>
      obtain ⟨n, rfl⟩ := Nat.exists_eq_add_of_le' (show 1 ≤ n by omega)
      rw [List.length_cons, Nat.add_right_comm, Nat.add_comm _ 1, slice_add,
        List.cons_append] at hslice
      have hparts := List.cons.inj hslice
      have hne : c ≠ nul := fun heq => hword (heq ▸ List.mem_cons_self)
      have hhead : buf ofs = c := hparts.1
      rw [cstring, hhead, if_neg hne, ih (fun hmem => hword (List.mem_cons_of_mem _ hmem)) hparts.2
        (by rw [List.length_cons] at hn; omega)]
      rfl

/-- The vector ends at its null pointer. -/
theorem State.vector_eq {st : State} {argv strings : List (List Byte)} {n k : ℕ}
    (hstrings : ∀ t (ht : t < strings.length),
      st.Argv (k + t) ≠ .null ∧ st.string argv (st.Argv (k + t)) = .ok strings[t])
    (hnull : st.Argv (k + strings.length) = .null) (hn : strings.length < n) :
    st.vector argv n k = .ok strings := by
  induction strings generalizing n k with
  | nil =>
      obtain ⟨n, rfl⟩ := Nat.exists_eq_add_of_le' (show 1 ≤ n from hn)
      exact if_pos hnull
  | cons s strings ih =>
      obtain ⟨n, rfl⟩ := Nat.exists_eq_add_of_le' (show 1 ≤ n by omega)
      obtain ⟨hne, hstring⟩ := hstrings 0 (Nat.succ_pos _)
      rw [Nat.add_zero] at hne hstring
      have hrest := ih (n := n) (k := k + 1)
        (fun t ht => by
          have ht' : t + 1 < (s :: strings).length := Nat.succ_lt_succ ht
          have hnext := hstrings (t + 1) ht'
          rw [List.getElem_cons_succ] at hnext
          rw [Nat.add_assoc, Nat.add_comm 1 t]
          exact hnext)
        (by rw [Nat.add_assoc, Nat.add_comm 1 _]; exact hnull)
        (Nat.lt_of_succ_lt_succ hn)
      rw [State.vector, if_neg hne, hstring, ok_bind, hrest]
      rfl

theorem copyArgs_spec {maxArg n i : ℕ} (Argv : ℕ → Pointer) (hi : 1 ≤ i)
    (hend : i - 1 + n ≤ maxArg) :
    ∃ Argv', copyArgs maxArg n i Argv = .ok Argv' ∧
      ∀ k, Argv' k = if i - 1 ≤ k ∧ k < i - 1 + n then .arg (k + 1) else Argv k := by
  induction n generalizing i Argv with
  | zero =>
      refine ⟨Argv, rfl, fun k => ?_⟩
      rw [if_neg (by omega)]
  | succ n ih =>
      obtain ⟨Argv', hcopy, hArgv⟩ := ih (i := i + 1) (Function.update Argv (i - 1) (.arg i))
        (by omega) (by omega)
      refine ⟨Argv', ?_, fun k => ?_⟩
      · rw [copyArgs, if_pos (by omega), hcopy]
      · rw [hArgv k, Function.update_apply]
        by_cases heq : k = i - 1
        · rw [if_neg (by omega), if_pos heq, if_pos (by omega), heq, Nat.sub_add_cancel hi]
        · rw [if_neg heq]
          congr 1
          rw [eq_iff_iff]
          omega

/-- The loop that looks for the start stops at the first character other than a space. -/
theorem findStart_spec {n i m : ℕ} (hle : i ≤ m) (hm : m < i + n) (hend : i + n ≤ 512)
    (hne : stdin m ≠ space) :
    ∃ start, findStart stdin n i = .ok start ∧ i ≤ start ∧ start ≤ m ∧ stdin start ≠ space ∧
      ∀ k, i ≤ k → k < start → stdin k = space := by
  induction n generalizing i with
  | zero => omega
  | succ n ih =>
      rw [findStart, peek_ok rfl (by omega), ok_bind]
      by_cases hc : stdin i = space
      · have hlt : i ≠ m := fun heq => hne (heq ▸ hc)
        obtain ⟨start, hfind, hlo, hhi, hstart, hspaces⟩ := ih (i := i + 1) (by omega)
          (by omega) (by omega)
        refine ⟨start, ?_, by omega, hhi, hstart, ?_⟩
        · rw [if_neg (not_not.mpr hc), hfind]
        · intro k hik hk
          by_cases heq : k = i
          · rw [heq]
            exact hc
          · exact hspaces k (by omega) hk
      · refine ⟨i, ?_, le_refl i, hle, hc, fun k hik hk => by omega⟩
        rw [if_pos hc]
        rfl

theorem Reads.drop {line : List Byte} {i k : ℕ} (h : Reads stdin i line) (hk : k ≤ line.length) :
    Reads stdin (i + k) (line.drop k) := by
  induction line generalizing i k with
  | nil =>
      obtain rfl : k = 0 := Nat.le_zero.mp hk
      exact h
  | cons c line ih =>
      cases k with
      | zero => exact h
      | succ k =>
          rw [List.drop_succ_cons, Nat.add_comm k 1, ← Nat.add_assoc]
          exact ih h.2 (Nat.le_of_succ_le_succ hk)

/-- Spaces at the front of the line do not matter. -/
theorem Reads.words_drop {line : List Byte} {i k : ℕ} (h : Reads stdin i line)
    (hk : k ≤ line.length) (hspaces : ∀ m, i ≤ m → m < i + k → stdin m = space) :
    words space (line.drop k) = words space line := by
  induction line generalizing i k with
  | nil =>
      obtain rfl : k = 0 := Nat.le_zero.mp hk
      rfl
  | cons c line ih =>
      cases k with
      | zero => rfl
      | succ k =>
          have hc : c = space := h.1.symm.trans (hspaces i (le_refl i) (by omega))
          rw [List.drop_succ_cons, hc, words_sep]
          exact ih h.2 (Nat.le_of_succ_le_succ hk) fun m hlo hhi => hspaces m (by omega) (by omega)

/-- A character that has been read is one of the line or the newline. -/
theorem Reads.head {line : List Byte} {i : ℕ} (h : Reads stdin i line) :
    stdin i = newline ∨ stdin i ∈ line := by
  cases line with
  | nil => exact Or.inl h
  | cons c line => exact Or.inr (by rw [h.1]; exact List.mem_cons_self)

end Basics

/-- The memory of the child when the words `done` are complete and `cur` has been begun, unless
it is empty.  The buffers of the words come after the first `base` ones. -/
structure Built (argc base : ℕ) (st : State) (done : List (List Byte)) (cur : List Byte) :
    Prop where
  args : ∀ k, k < argc - 1 → st.Argv k = .arg (k + 1)
  tokens : ∀ t (ht : t < done.length), st.Argv (argc - 1 + t) = .token (base + t) 0 ∧
    slice (st.heap (base + t)) 0 (done[t].length + 1) = done[t] ++ [nul]
  strings : ∀ word ∈ done, nul ∉ word ∧ word.length < bufSize
  index : st.j = argc - 1 + done.length
  count : st.allocated = base + done.length + if cur = [] then 0 else 1
  begun : cur ≠ [] → st.Argv st.j = .token (base + done.length) 0 ∧
    slice (st.heap (base + done.length)) 0 cur.length = cur ∧
    st.q = .token (base + done.length) (cur.length - 1)

section Words

variable {maxArg argc base : ℕ} {st : State} {done : List (List Byte)} {cur : List Byte}

/-- Storing to the buffer of the word that has been begun. -/
theorem poke_token (st : State) {buf ofs : ℕ} (hq : st.q = .token buf ofs)
    (hbuf : buf < st.allocated)
    (hofs : ofs < 512) (c : Byte) : st.poke c = .ok { st with
      heap := Function.update st.heap buf (Function.update (st.heap buf) ofs c) } := by
  rw [State.poke, hq]
  exact if_pos ⟨hbuf, hofs⟩

/-- The buffers of the complete words are other ones. -/
theorem Built.tokens_update (h : Built argc base st done cur) (content : ℕ → Byte) {t : ℕ}
    (ht : t < done.length) :
    slice (Function.update st.heap (base + done.length) content (base + t)) 0 (done[t].length + 1)
      = done[t] ++ [nul] := by
  rw [Function.update_of_ne (by omega)]
  exact (h.tokens t ht).2

/-- The first character of a word gets a new buffer. -/
theorem Built.begin (h : Built argc base st done []) (hj : argc - 1 + done.length < maxArg)
    (c : Byte) :
    ∃ st', (st.newToken maxArg >>= fun st => st.poke c) = .ok st' ∧
      Built argc base st' done [c] := by
  have hcount : st.allocated = base + done.length := h.count
  have hset : st.newToken maxArg = .ok { st with
      Argv := Function.update st.Argv st.j (.token st.allocated 0),
      q := .token st.allocated 0, allocated := st.allocated + 1 } := by
    rw [State.newToken, State.setArg, if_pos (by rw [h.index]; exact hj), ok_bind]
    rfl
  rw [hset, ok_bind, poke_token _ rfl (Nat.lt_succ_self _) (show 0 < 512 by decide)]
  refine ⟨_, rfl, ?_, ?_, h.strings, h.index, ?_, ?_⟩
  · intro k hk
    rw [← h.args k hk]
    exact Function.update_of_ne (by rw [h.index]; omega) _ _
  · intro t ht
    refine ⟨?_, ?_⟩
    · rw [← (h.tokens t ht).1]
      exact Function.update_of_ne (by rw [h.index]; omega) _ _
    · dsimp only
      rw [hcount]
      exact h.tokens_update _ ht
  · dsimp only
    rw [hcount, if_neg (List.cons_ne_nil c [])]
  · intro _
    refine ⟨?_, ?_, ?_⟩
    · dsimp only
      rw [Function.update_self, hcount]
    · dsimp only
      rw [hcount, Function.update_self]
      exact slice_update_concat _ 0 c
    · dsimp only
      rw [hcount]
      rfl

/-- The character after the last one of a word. -/
theorem Built.poke_next (h : Built argc base st done cur) (hne : cur ≠ [])
    (hlength : cur.length < 512) (c : Byte) :
    ({ st with q := st.q.next } : State).poke c = .ok { st with
      q := .token (base + done.length) cur.length,
      heap := Function.update st.heap (base + done.length)
        (Function.update (st.heap (base + done.length)) cur.length c) } := by
  have hpos := List.length_pos_of_ne_nil hne
  have hcount := h.count
  rw [if_neg hne] at hcount
  have hnext : st.q.next = .token (base + done.length) cur.length := by
    rw [(h.begun hne).2.2, Pointer.next, Nat.sub_add_cancel hpos]
  rw [hnext]
  exact poke_token { st with q := .token (base + done.length) cur.length } rfl
    (show base + done.length < st.allocated by omega) hlength c

theorem Built.extend (h : Built argc base st done cur) (hne : cur ≠ [])
    (hlength : cur.length < 512) (c : Byte) :
    ∃ st', ({ st with q := st.q.next } : State).poke c = .ok st' ∧
      Built argc base st' done (cur ++ [c]) := by
  obtain ⟨hArgv, hslice, -⟩ := h.begun hne
  rw [h.poke_next hne hlength]
  refine ⟨_, rfl, h.args, ?_, h.strings, h.index, ?_, ?_⟩
  · exact fun t ht => ⟨(h.tokens t ht).1, h.tokens_update _ ht⟩
  · rw [h.count, if_neg hne, if_neg (by simp)]
  · intro _
    refine ⟨hArgv, ?_, ?_⟩
    · dsimp only
      rw [Function.update_self, List.length_append, List.length_singleton, slice_update_concat,
        hslice]
    · dsimp only
      rw [List.length_append, List.length_singleton, Nat.add_sub_cancel]

/-- The NUL makes a word complete. -/
theorem Built.finish (h : Built argc base st done cur) (hne : cur ≠ [])
    (hlength : cur.length < 512) (hnul : nul ∉ cur) :
    ∃ st', st.endToken = .ok st' ∧ Built argc base st' (done ++ [cur]) [] := by
  obtain ⟨hArgv, hslice, -⟩ := h.begun hne
  have hcount := h.count
  rw [if_neg hne] at hcount
  have hindex := h.index
  rw [State.endToken, h.poke_next hne hlength, ok_bind]
  refine ⟨_, rfl, h.args, ?_, ?_, ?_, ?_, fun hnil => absurd rfl hnil⟩
  · intro t ht
    rw [List.length_append, List.length_singleton] at ht
    dsimp only
    by_cases hlast : t = done.length
    · subst hlast
      rw [Function.update_self, List.getElem_concat_length rfl, ← hindex, slice_update_concat,
        hslice]
      exact ⟨hArgv, rfl⟩
    · have hlt : t < done.length := by omega
      rw [List.getElem_append_left hlt]
      exact ⟨(h.tokens t hlt).1, h.tokens_update _ hlt⟩
  · intro word hword
    rcases List.mem_append.mp hword with hword | hword
    · exact h.strings word hword
    · rw [List.mem_singleton.mp hword]
      exact ⟨hnul, hlength⟩
  · rw [List.length_append, List.length_singleton]
    change st.j + 1 = _
    omega
  · rw [List.length_append, List.length_singleton, if_pos rfl]
    change st.allocated = _
    omega

/-- The null pointer comes behind the words. -/
theorem Built.setNull (h : Built argc base st done []) (hj : argc - 1 + done.length < maxArg) :
    ∃ st', st.setArg maxArg .null = .ok st' ∧ Built argc base st' done [] ∧
      st'.Argv (argc - 1 + done.length) = .null := by
  have hindex := h.index
  rw [State.setArg, if_pos (by omega)]
  refine ⟨_, rfl, ⟨?_, ?_, h.strings, hindex, h.count, fun hnil => absurd rfl hnil⟩, ?_⟩
  · intro k hk
    rw [← h.args k hk]
    exact Function.update_of_ne (by omega) _ _
  · intro t ht
    refine ⟨?_, (h.tokens t ht).2⟩
    rw [← (h.tokens t ht).1]
    exact Function.update_of_ne (by omega) _ _
  · dsimp only
    rw [← hindex, Function.update_self]

end Words

section Loop

variable {maxArg argc base start i : ℕ} {stdin : ℕ → Byte} {st : State}
  {done : List (List Byte)} {cur : List Byte}

/-- No word is open at index `i`. -/
def Closed (stdin : ℕ → Byte) (start i : ℕ) : Prop :=
  (i = start ∨ stdin (i - 1) = space) ∧ stdin i ≠ space

theorem closed_succ (hi : start ≤ i) :
    Closed stdin start (i + 1) ↔ stdin i = space ∧ stdin (i + 1) ≠ space := by
  rw [Closed, Nat.add_sub_cancel, or_iff_right (by omega)]

/-- A turn of the loop at a character of a word. -/
theorem Built.step_word (h : Built argc base st done cur) (hi : start ≤ i) (hlt : i < 512)
    (hlength : cur.length ≤ i) (hc : stdin i ≠ space) (hnewline : stdin i ≠ newline)
    (hnul : stdin i ≠ nul) (hopen : cur = [] ↔ Closed stdin start i)
    (hj : argc - 1 + done.length < maxArg) :
    ∃ st', splitStep maxArg stdin start i st = .ok (true, st') ∧
      Built argc base st' done (cur ++ [stdin i]) := by
  have hfirst : (if i = start then .ok true else do
      let before ← peek stdin ((i : Int) - 1)
      return decide (before = space)) = (.ok (decide (cur = [])) : Except Fault Bool) := by
    by_cases hstart : i = start
    · rw [if_pos hstart, decide_eq_true (hopen.mpr ⟨Or.inl hstart, hc⟩)]
    · rw [if_neg hstart, peek_ok (show (i : Int) - 1 = (i - 1 : ℕ) by omega) (by omega), ok_bind]
      have hiff : stdin (i - 1) = space ↔ cur = [] := by
        rw [hopen, Closed, or_iff_right hstart, and_iff_left hc]
      exact congrArg _ (decide_eq_decide.mpr hiff)
  rw [splitStep, peek_ok rfl hlt, ok_bind, if_pos ⟨hc, hnewline, hnul⟩, hfirst, ok_bind]
  by_cases hnil : cur = []
  · subst hnil
    obtain ⟨st', hstep, h'⟩ := h.begin hj (stdin i)
    cases hnew : st.newToken maxArg with
    | error e =>
        rw [hnew] at hstep
        cases hstep
    | ok st₁ =>
        rw [hnew, ok_bind] at hstep
        refine ⟨st', ?_, h'⟩
        rw [decide_eq_true rfl, if_pos rfl, ok_bind, hstep]
        rfl
  · obtain ⟨st', hstep, h'⟩ := h.extend hnil (by omega) (stdin i)
    refine ⟨st', ?_, h'⟩
    rw [decide_eq_false hnil, if_neg (by decide), ok_bind, hstep]
    rfl

/-- A turn of the loop at a space.  The word is complete with the last space behind it. -/
theorem Built.step_space (h : Built argc base st done cur) (maxArg start : ℕ) (hlt : i + 1 < 512)
    (hlength : cur.length ≤ i) (hnul : nul ∉ cur) (hc : stdin i = space) (hne : cur ≠ []) :
    ∃ st', splitStep maxArg stdin start i st = .ok (true, st') ∧
      if stdin (i + 1) = space then Built argc base st' done cur
        else Built argc base st' (done ++ [cur]) [] := by
  rw [splitStep, peek_ok rfl (by omega), ok_bind, if_neg (fun hword => hword.1 hc), if_pos hc,
    peek_ok (show (i : Int) + 1 = (i + 1 : ℕ) by omega) hlt, ok_bind]
  by_cases hafter : stdin (i + 1) = space
  · refine ⟨st, ?_, ?_⟩
    · rw [if_neg (not_not.mpr hafter)]
      rfl
    · rw [if_pos hafter]
      exact h
  · obtain ⟨st', hstep, h'⟩ := h.finish hne (by omega) hnul
    refine ⟨st', ?_, ?_⟩
    · rw [if_pos hafter, hstep]
      rfl
    · rw [if_neg hafter]
      exact h'

/-- The turn of the loop at the newline. -/
theorem Built.step_newline (h : Built argc base st done cur) (hpos : 0 < i) (hlt : i < 512)
    (hlength : cur.length ≤ i) (hnul : nul ∉ cur) (hspace : space ∉ cur) (hc : stdin i = newline)
    (hspaces : ∀ k, k < start → stdin k = space) (hopen : cur = [] ↔ Closed stdin start i)
    (hj : argc - 1 + (done ++ words space cur).length < maxArg) :
    ∃ st', splitStep maxArg stdin start i st = .ok (false, st') ∧
      Built argc base st' (done ++ words space cur) [] ∧
      st'.Argv (argc - 1 + (done ++ words space cur).length) = .null := by
  have hclosed : stdin (i - 1) = space ↔ cur = [] := by
    rw [hopen, Closed, and_iff_left (by rw [hc]; decide)]
    refine ⟨Or.inr, ?_⟩
    rintro (rfl | hbefore)
    · exact hspaces (i - 1) (by omega)
    · exact hbefore
  rw [splitStep, peek_ok rfl hlt, ok_bind, if_neg (fun hword => hword.2.1 hc),
    if_neg (by rw [hc]; decide), peek_ok (show (i : Int) - 1 = (i - 1 : ℕ) by omega) (by omega),
    ok_bind]
  by_cases hnil : cur = []
  · subst hnil
    rw [words_nil, List.append_nil] at hj ⊢
    obtain ⟨st', hset, h', hnull⟩ := h.setNull hj
    refine ⟨st', ?_, h', hnull⟩
    rw [if_neg (not_not.mpr (hclosed.mpr rfl)), ok_bind, hset]
    rfl
  · rw [words_last hnil hspace] at hj ⊢
    obtain ⟨st₁, hend, h₁⟩ := h.finish hnil (by omega) hnul
    obtain ⟨st', hset, h', hnull⟩ := h₁.setNull hj
    refine ⟨st', ?_, h', hnull⟩
    rw [if_pos (fun hbefore => hnil (hclosed.mp hbefore)), hend, ok_bind, hset]
    rfl

theorem splitLoop_next {n : ℕ} {st' : State}
    (hstep : splitStep maxArg stdin start i st = .ok (true, st')) :
    splitLoop maxArg stdin start (n + 1) i st = splitLoop maxArg stdin start n (i + 1) st' := by
  rw [splitLoop, hstep]
  rfl

/-- The loop over the line, from index `i` on. -/
theorem Built.splitLoop {n : ℕ} {rest : List Byte} (h : Built argc base st done cur)
    (hreads : Reads stdin i rest) (hnul : nul ∉ cur ++ rest) (hnewline : newline ∉ rest)
    (hspace : space ∉ cur) (hlength : cur.length ≤ i) (hend : i + rest.length ≤ 510)
    (hn : rest.length < n) (hi : start ≤ i) (hspaces : ∀ k, k < start → stdin k = space)
    (hopen : cur = [] ↔ Closed stdin start i)
    (hsome : 0 < i ∨ rest ≠ [])
    (htotal : argc - 1 + (done ++ words space (cur ++ rest)).length < maxArg) :
    ∃ st', Xargs.splitLoop maxArg stdin start n i st = .ok st' ∧
      Built argc base st' (done ++ words space (cur ++ rest)) [] ∧
      st'.Argv (argc - 1 + (done ++ words space (cur ++ rest)).length) = .null := by
  induction rest generalizing i n st done cur with
  | nil =>
      obtain ⟨n, rfl⟩ := Nat.exists_eq_add_of_le' (show 1 ≤ n from hn)
      rw [List.append_nil] at hnul htotal ⊢
      obtain ⟨st', hstep, h', hnull⟩ := h.step_newline (hsome.resolve_right (fun hne => hne rfl))
        (by omega) hlength hnul hspace hreads hspaces hopen htotal
      refine ⟨st', ?_, h', hnull⟩
      rw [Xargs.splitLoop, hstep]
      rfl
  | cons c rest ih =>
      obtain ⟨n, rfl⟩ := Nat.exists_eq_add_of_le' (show 1 ≤ n by omega)
      obtain ⟨hc, hrest⟩ := hreads
      rw [List.length_cons] at hend hn
      rw [List.mem_append, List.mem_cons, not_or, not_or] at hnul
      rw [List.mem_cons, not_or] at hnewline
      obtain ⟨hnulCur, hnulc, hnulRest⟩ := hnul
      have hcount : (done ++ words space (cur ++ c :: rest)).length
          = done.length + (words space (cur ++ c :: rest)).length := List.length_append
      by_cases hsp : c = space
      · have hnot : ¬ Closed stdin start i := fun hclosed => hclosed.2 (hc.trans hsp)
        have hne : cur ≠ [] := fun hnil => hnot (hopen.mp hnil)
        have hwords : words space (cur ++ c :: rest) = cur :: words space rest := by
          rw [hsp, words_cons hne hspace]
        obtain ⟨st₁, hstep, h₁⟩ := h.step_space maxArg start (show i + 1 < 512 by omega) hlength
          hnulCur (hc.trans hsp) hne
        rw [splitLoop_next hstep]
        by_cases hafter : stdin (i + 1) = space
        · -- The word stays open until the last space behind it.
          rw [if_pos hafter] at h₁
          have hsame : words space (cur ++ rest) = words space (cur ++ c :: rest) := by
            cases rest with
            | nil =>
                have hend : stdin (i + 1) = newline := hrest
                rw [hafter] at hend
                exact absurd hend (by decide)
            | cons c' rest =>
                have hc' : c' = space := hrest.1.symm.trans hafter
                rw [hwords, hc', words_cons hne hspace, words_sep]
          have hclosed : cur = [] ↔ Closed stdin start (i + 1) := by
            rw [closed_succ hi]
            exact iff_of_false hne fun hboth => hboth.2 hafter
          rw [← hsame] at htotal ⊢
          exact ih h₁ hrest (by simp [hnulCur, hnulRest]) hnewline.2 hspace (by omega) (by omega)
            (by omega) (by omega) hclosed (Or.inl (Nat.succ_pos i)) htotal
        · rw [if_neg hafter] at h₁
          have hclosed : [] = ([] : List Byte) ↔ Closed stdin start (i + 1) := by
            rw [closed_succ hi]
            exact iff_of_true rfl ⟨hc.trans hsp, hafter⟩
          have hsame : (done ++ [cur]) ++ words space ([] ++ rest)
              = done ++ words space (cur ++ c :: rest) := by
            rw [hwords, List.append_assoc, List.singleton_append, List.nil_append]
          rw [← hsame] at htotal ⊢
          exact ih h₁ hrest hnulRest hnewline.2 List.not_mem_nil (Nat.zero_le _) (by omega)
            (by omega) (by omega) hclosed (Or.inl (Nat.succ_pos i)) htotal
      · obtain ⟨st₁, hstep, h₁⟩ := h.step_word hi (show i < 512 by omega) hlength
          (by rw [hc]; exact hsp) (by rw [hc]; exact Ne.symm hnewline.1)
          (by rw [hc]; exact Ne.symm hnulc) hopen (show argc - 1 + done.length < maxArg by omega)
        rw [hc] at h₁
        have hclosed : cur ++ [c] = [] ↔ Closed stdin start (i + 1) := by
          rw [closed_succ hi]
          exact iff_of_false (by simp) fun hboth => hsp (hc.symm.trans hboth.1)
        have hsame : (cur ++ [c]) ++ rest = cur ++ c :: rest := by
          rw [List.append_assoc, List.singleton_append]
        rw [splitLoop_next hstep, ← hsame]
        rw [← hsame] at htotal
        exact ih h₁ hrest (by simp [hnulCur, hnulc, hnulRest]) hnewline.2
          (by simp [hspace, Ne.symm hsp]) (by simp; omega) (by omega) (by omega) (by omega) hclosed
          (Or.inl (Nat.succ_pos i)) htotal

end Loop

section Lines

variable {maxArg : ℕ} {argv : List (List Byte)} {stdin : ℕ → Byte} {line : List Byte} {st : State}

/-- What `exec` finds in the memory of the child. -/
theorem Built.vector {base : ℕ} {done : List (List Byte)}
    (h : Built argv.length base st done []) (hargc : 1 < argv.length)
    (hnull : st.Argv (argv.length - 1 + done.length) = .null)
    (htotal : argv.length - 1 + done.length < maxArg) :
    st.vector argv maxArg 0 = .ok (argv.tail ++ done) := by
  have hlength : (argv.tail ++ done).length = argv.length - 1 + done.length := by
    rw [List.length_append, List.length_tail]
  apply State.vector_eq
  · intro t ht
    rw [hlength] at ht
    rw [Nat.zero_add]
    by_cases hold : t < argv.length - 1
    · have hindex : t + 1 < argv.length := by omega
      rw [h.args t hold, List.getElem_append_left (by rw [List.length_tail]; exact hold),
        List.getElem_tail]
      exact ⟨Pointer.noConfusion, dif_pos hindex⟩
    · obtain ⟨k, rfl⟩ := Nat.exists_eq_add_of_le (Nat.le_of_not_lt hold)
      have hk : k < done.length := by omega
      obtain ⟨hArgv, hslice⟩ := h.tokens k hk
      obtain ⟨hnul, hfits⟩ := h.strings done[k] (List.getElem_mem hk)
      have hbase : base + k < st.allocated := by
        rw [h.count]
        omega
      rw [hArgv, List.getElem_append_right (by rw [List.length_tail]; omega)]
      refine ⟨Pointer.noConfusion, ?_⟩
      simp only [List.length_tail, Nat.add_sub_cancel_left]
      rw [State.string, if_pos hbase]
      exact cstring_eq hnul hslice hfits
  · rw [Nat.zero_add, hlength]
    exact hnull
  · rw [hlength]
    exact htotal

theorem Stored.start (h : Stored stdin line) :
    ∃ start, findStart stdin bufSize 0 = .ok start ∧ start ≤ line.length ∧
      stdin start ≠ space ∧ stdin start ≠ nul ∧ ∀ k, k < start → stdin k = space := by
  have hlength := h.length_le
  have hlast := h.reads.drop (le_refl line.length)
  rw [List.drop_length, Nat.zero_add] at hlast
  have hnewline : stdin line.length = newline := hlast
  obtain ⟨start, hfind, -, hle, hstart, hspaces⟩ :=
    findStart_spec (n := bufSize) (Nat.zero_le line.length)
      (show line.length < 0 + 512 by omega) (le_refl 512)
      (show stdin line.length ≠ space by rw [hnewline]; decide)
  refine ⟨start, hfind, hle, hstart, ?_, fun k hk => hspaces k (Nat.zero_le k) hk⟩
  have hreads := h.reads.drop hle
  rw [Nat.zero_add] at hreads
  rcases hreads.head with heq | hmem
  · rw [heq]
    decide
  · intro heq
    rw [heq] at hmem
    exact h.noNul (List.mem_of_mem_drop hmem)

/-- A line that is not empty is split as it should be. -/
theorem runLine_words (h : Stored stdin line) (hne : line ≠ []) (hargc : 1 < argv.length)
    (htotal : argv.length - 1 + (words space line).length < maxArg)
    (hargs : ∀ k, k < argv.length - 1 → st.Argv k = .arg (k + 1)) :
    runLine maxArg argv stdin st = .ok (some (argv.tail ++ words space line)) := by
  obtain ⟨start, hfind, hle, hstart, hnul, hspaces⟩ := h.start
  have hlength := h.length_le
  have hreads := h.reads.drop hle
  have hwords := h.reads.words_drop hle fun m _ hm => hspaces m (by omega)
  rw [Nat.zero_add] at hreads
  have hbuilt : Built argv.length st.allocated
      { st with q := st.Argv (argv.length - 1), j := argv.length - 1 } [] [] :=
    ⟨hargs, fun t ht => absurd ht (Nat.not_lt_zero t),
      fun word hword => absurd hword List.not_mem_nil,
      rfl, rfl, fun hnil => absurd rfl hnil⟩
  have hclosed : [] = ([] : List Byte) ↔ Closed stdin start start :=
    iff_of_true rfl ⟨Or.inl rfl, hstart⟩
  have hsome : 0 < start ∨ line.drop start ≠ [] := by
    rcases Nat.eq_zero_or_pos start with hzero | hpos
    · rw [hzero]
      exact Or.inr hne
    · exact Or.inl hpos
  obtain ⟨st', hloop, hbuilt', hnull⟩ := hbuilt.splitLoop (n := bufSize - start) hreads
    (fun hmem => h.noNul (List.mem_of_mem_drop hmem))
    (fun hmem => h.noNewline (List.mem_of_mem_drop hmem)) List.not_mem_nil (Nat.zero_le _)
    (by rw [List.length_drop]; omega) (by rw [List.length_drop, bufSize]; omega) (le_refl start)
    hspaces hclosed hsome
    (show argv.length - 1 + (words space (line.drop start)).length < maxArg by
      rw [hwords]
      exact htotal)
  rw [List.nil_append, List.nil_append, hwords] at hbuilt' hnull
  rw [runLine, hfind, ok_bind, peek_ok rfl (show start < 512 by omega), ok_bind, if_neg hnul, child,
    if_pos (show argv.length - 1 < maxArg by omega), ok_bind, hloop, ok_bind,
    hbuilt'.vector hargc hnull htotal]
  rfl

/-- On an empty line the splitter looks at the byte before the buffer. -/
theorem runLine_empty (h : Stored stdin []) (hmax : argv.length - 1 < maxArg) :
    runLine maxArg argv stdin st = .error (.stdin (-1)) := by
  have hnewline : stdin 0 = newline := h.reads
  have hpeek : peek stdin (0 : ℕ) = .ok newline := by
    rw [peek_ok rfl (by decide), hnewline]
  have hfind : findStart stdin bufSize 0 = .ok 0 := by
    rw [show bufSize = 511 + 1 from rfl, findStart, hpeek]
    rfl
  have hstep : ∀ st : State, splitStep maxArg stdin 0 0 st = .error (.stdin (-1)) := by
    intro st
    rw [splitStep, hpeek]
    rfl
  rw [runLine, hfind, ok_bind, hpeek, ok_bind, if_neg (by decide), child, if_pos hmax, ok_bind,
    show bufSize - 0 = 511 + 1 from rfl, splitLoop, hstep]
  rfl

theorem loop_words {stdins : List (ℕ → Byte)} {lines : List (List Byte)}
    (hstored : List.Forall₂ Stored stdins lines) (hargc : 1 < argv.length)
    (htotal : ∀ line ∈ lines, argv.length - 1 + (words space line).length < maxArg)
    (hargs : ∀ k, k < argv.length - 1 → st.Argv k = .arg (k + 1)) :
    ([] ∉ lines → main.loop maxArg argv st stdins
      = .ok (lines.map fun line => argv.tail ++ words space line)) ∧
    ([] ∈ lines → main.loop maxArg argv st stdins = .error (.stdin (-1))) := by
  induction hstored with
  | nil => exact ⟨fun _ => rfl, fun hmem => absurd hmem List.not_mem_nil⟩
  | @cons stdin line stdins lines hline _ ih =>
      obtain ⟨hok, hfail⟩ := ih fun line' hline' => htotal line' (List.mem_cons_of_mem _ hline')
      have hroom := htotal line List.mem_cons_self
      by_cases hnil : line = []
      · subst hnil
        refine ⟨fun hnot => absurd List.mem_cons_self hnot, fun _ => ?_⟩
        rw [main.loop, runLine_empty hline (by omega)]
        rfl
      · have hrun := runLine_words hline hnil hargc hroom hargs
        refine ⟨fun hnot => ?_, fun hmem => ?_⟩
        · rw [main.loop, hrun, ok_bind]
          dsimp only
          rw [hok fun hmem => hnot (List.mem_cons_of_mem _ hmem)]
          rfl
        · rw [main.loop, hrun, ok_bind]
          dsimp only
          rw [hfail ((List.mem_cons.mp hmem).resolve_left (Ne.symm hnil))]
          rfl

/-- `xargs` gives `exec` its own arguments and the words of the line, line by line, exactly when
no line is empty. -/
theorem xargs_splits_iff {stdins : List (ℕ → Byte)} {lines : List (List Byte)}
    (hstored : List.Forall₂ Stored stdins lines) (hargc : 1 < argv.length)
    (hmax : argv.length - 1 < maxArg)
    (htotal : ∀ line ∈ lines, argv.length - 1 + (words space line).length < maxArg) :
    main maxArg argv st stdins = .ok (lines.map fun line => argv.tail ++ words space line) ↔
      [] ∉ lines := by
  obtain ⟨Argv, hcopy, hArgv⟩ := copyArgs_spec (n := argv.length - 1) (i := 1) st.Argv (le_refl 1)
    (show 1 - 1 + (argv.length - 1) ≤ maxArg by omega)
  have hargs : ∀ k, k < argv.length - 1 → Argv k = .arg (k + 1) := by
    intro k hk
    rw [hArgv k, if_pos (by omega)]
  obtain ⟨hok, hfail⟩ := loop_words hstored hargc htotal
    (show ∀ k, k < argv.length - 1 → ({ st with Argv := Argv } : State).Argv k = .arg (k + 1)
      from hargs)
  have hmain : main maxArg argv st stdins
      = main.loop maxArg argv { st with Argv := Argv } stdins := by
    rw [main, if_neg (by omega), hcopy, ok_bind]
  rw [hmain]
  constructor
  · intro hall hmem
    rw [hfail hmem] at hall
    cases hall
  · exact hok

/-- The line buffer with a line in it. -/
def bufferOf (line : List Byte) : ℕ → Byte := fun i => (line ++ [newline]).getD i nul

/-- `xargs` with the argument `e` on the lines ` ab  c` and `d`, and on the first of them and an
empty one. -/
theorem xargs_splits_iff_two_lines :
    main 32 [[0x78], [0x65]] ⟨fun _ => .wild, fun _ _ => nul, 0, .wild, 0⟩
        [bufferOf [0x20, 0x61, 0x62, 0x20, 0x20, 0x63], bufferOf [0x64]]
      = .ok [[[0x65], [0x61, 0x62], [0x63]], [[0x65], [0x64]]] ∧
    main 32 [[0x78], [0x65]] ⟨fun _ => .wild, fun _ _ => nul, 0, .wild, 0⟩
        [bufferOf [0x20, 0x61, 0x62, 0x20, 0x20, 0x63], bufferOf []]
      ≠ .ok [[[0x65], [0x61, 0x62], [0x63]], [[0x65]]] := by
  have hfirst : Stored (bufferOf [0x20, 0x61, 0x62, 0x20, 0x20, 0x63])
      [0x20, 0x61, 0x62, 0x20, 0x20, 0x63] :=
    ⟨by decide, by decide, by decide, ⟨rfl, rfl, rfl, rfl, rfl, rfl, rfl⟩, by decide⟩
  have hsecond : Stored (bufferOf [0x64]) [0x64] :=
    ⟨by decide, by decide, by decide, ⟨rfl, rfl⟩, by decide⟩
  have hempty : Stored (bufferOf []) [] := ⟨by decide, by decide, by decide, rfl, by decide⟩
  constructor
  · exact (xargs_splits_iff (.cons hfirst (.cons hsecond .nil)) (by decide) (by decide)
      (by decide)).mpr (by decide)
  · intro hall
    exact (xargs_splits_iff (.cons hfirst (.cons hempty .nil)) (by decide) (by decide)
      (by decide)).mp hall (by decide)

theorem xargs_not_splits : ¬ ∀ (maxArg : ℕ) (argv : List (List Byte)) (stdin : ℕ → Byte)
    (line : List Byte) (st : State), Stored stdin line → 1 < argv.length →
    argv.length - 1 + (words space line).length < maxArg →
    main maxArg argv st [stdin] = .ok [argv.tail ++ words space line] := by
  intro hall
  have hstored : Stored (bufferOf []) [] := ⟨by decide, by decide, by decide, rfl, by decide⟩
  have hwrong := hall 32 [[0x78], [0x65]] (bufferOf []) []
    ⟨fun _ => .wild, fun _ _ => nul, 0, .wild, 0⟩ hstored (by decide) (by decide)
  exact absurd hwrong (by decide)

end Lines

end OperateSystem.Xargs
