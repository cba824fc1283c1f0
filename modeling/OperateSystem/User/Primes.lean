import OperateSystem.Core.ByteStore
import OperateSystem.Core.Sieve

/-!
# `primes`

`primes.c`: in every round the parent prints the first number that is left and sends all
numbers to a child, which takes the multiples of the first one out and sends the others
back.  Both directions end with the sentinel `MAX + 1`.

`max` is the constant `MAX`, and an `int` is large enough for `MAX + 1`.  The pipes
deliver what is written, four bytes at a time and in order; `pipe` and `fork` succeed.
The child reads all numbers before it sends any, so a round is the parent's writing, the
child's reading and writing and the parent's reading, one after the other.
-/

namespace OperateSystem.Primes

open OperateSystem.ByteStore OperateSystem.Sieve

/-- An element outside of `num`, or a division by a number that was never set. -/
inductive Fault
  | num (i : ℕ)
  | divisor
  deriving DecidableEq

/-- `num[i]`. -/
def load (max : ℕ) (num : ℕ → ℕ) (i : ℕ) : Except Fault ℕ :=
  if i < max then .ok (num i) else .error (.num i)

/-- `num[i] = n`. -/
def store (max : ℕ) (num : ℕ → ℕ) (i n : ℕ) : Except Fault (ℕ → ℕ) :=
  if i < max then .ok (Function.update num i n) else .error (.num i)

/-- `read(pipe, (char*)&num[i], 4)`: at the end of the file nothing is stored. -/
def readNum (max : ℕ) (pipe : List ℕ) (num : ℕ → ℕ) (i : ℕ) : Except Fault (List ℕ × (ℕ → ℕ)) :=
  match pipe with
  | [] => .ok ([], num)
  | n :: pipe => do
      let num ← store max num i n
      return (pipe, num)

/-- The loop that sends the numbers, for `n` more elements from `i` on: what is sent, and
whether the loop has stopped at the sentinel. -/
def send (max : ℕ) (num : ℕ → ℕ) : (n i : ℕ) → Except Fault (List ℕ × Bool)
  | 0, _ => .ok ([], false)
  | n + 1, i => do
      let a ← load max num i
      if a = max + 1 then return ([a], true)
      else
        let (sent, stopped) ← send max num n (i + 1)
        return (a :: sent, stopped)

/-- The loop of the parent that receives the numbers. -/
def receive (max : ℕ) : (n i : ℕ) → (pipe : List ℕ) → (ℕ → ℕ) → Except Fault ((ℕ → ℕ) × Bool)
  | 0, _, _, num => .ok (num, false)
  | n + 1, i, pipe, num => do
      let (pipe, num) ← readNum max pipe num i
      let a ← load max num i
      if a = max + 1 then return (num, true) else receive max n (i + 1) pipe num

/-- The loop of the child that receives the numbers and keeps those that `numDivide` does not
divide. -/
def sift (max : ℕ) : (n i j : ℕ) → (numDivide : Option ℕ) → (pipe : List ℕ) → (ℕ → ℕ) →
    Except Fault ((ℕ → ℕ) × Bool)
  | 0, _, _, _, _, num => .ok (num, false)
  | n + 1, i, j, numDivide, pipe, num => do
      let (pipe, num) ← readNum max pipe num i
      let a ← load max num i
      if a = max + 1 then
        let num ← store max num j (max + 1)
        return (num, true)
      else if i = 0 then sift max n (i + 1) j (some a) pipe num
      else
        match numDivide with
        | none => .error .divisor
        | some d =>
            if d = 0 then .error .divisor
            else if a % d ≠ 0 then
              let num ← store max num j a
              sift max n (i + 1) (j + 1) numDivide pipe num
            else sift max n (i + 1) j numDivide pipe num

/-- A round: what is printed, what goes down to the child and up to the parent, and whether the
four loops have stopped at the sentinel. -/
structure Round where
  prime : ℕ
  down : List ℕ
  up : List ℕ
  stopped : List Bool

/-- One turn of the loop of `main`, with the array that it leaves. -/
def round (max : ℕ) (num : ℕ → ℕ) : Except Fault (Round × (ℕ → ℕ)) := do
  let prime ← load max num 0
  let (down, sent) ← send max num max 0
  -- `fork`: the child starts with a copy of the array.
  let (childNum, sifted) ← sift max max 0 0 none down num
  let (up, answered) ← send max childNum max 0
  let (num, received) ← receive max max 0 up num
  return (⟨prime, down, up, [sent, sifted, answered, received]⟩, num)

/-- The loop of `main`, none if the fuel does not suffice. -/
def rounds (max : ℕ) : (fuel : ℕ) → (ℕ → ℕ) → Except Fault (Option (List Round))
  | 0, _ => .ok none
  | fuel + 1, num => do
      let first ← load max num 0
      if first ≤ max then
        let (r, num) ← round max num
        let rest ← rounds max fuel num
        return rest.map (r :: ·)
      else return some []

/-- The loop that sets up the array, for `n` more elements from `i` on. -/
def setup (max : ℕ) : (n i : ℕ) → (ℕ → ℕ) → Except Fault (ℕ → ℕ)
  | 0, _, num => .ok num
  | n + 1, i, num => do
      let num ← store max num i (i + 2)
      setup max n (i + 1) num

def main (max fuel : ℕ) (num : ℕ → ℕ) : Except Fault (Option (List Round)) := do
  let num ← setup max max 0 num
  rounds max fuel num

section Loops

variable {max n i : ℕ} {num : ℕ → ℕ}

theorem ok_bind {α β : Type} (a : α) (f : α → Except Fault β) : (Except.ok a >>= f) = f a := rfl

theorem slice_cons {ofs k a : ℕ} {rest : List ℕ} (h : slice num ofs (k + 1) = a :: rest) :
    num ofs = a ∧ slice num (ofs + 1) k = rest := by
  rw [slice_succ] at h
  exact List.cons.inj h

/-- The numbers are sent up to the sentinel. -/
theorem send_spec {l : List ℕ} (hslice : slice num i (l.length + 1) = l ++ [max + 1])
    (hl : max + 1 ∉ l) (hend : i + l.length < max) (hn : l.length < n) :
    send max num n i = .ok (l ++ [max + 1], true) := by
  induction l generalizing n i with
  | nil =>
      obtain ⟨n, rfl⟩ := Nat.exists_eq_add_of_le' (show 1 ≤ n from hn)
      obtain ⟨hhead, -⟩ := slice_cons hslice
      rw [send, load, if_pos (show i < max by exact hend), ok_bind, if_pos hhead, hhead]
      rfl
  | cons a l ih =>
      obtain ⟨n, rfl⟩ := Nat.exists_eq_add_of_le' (show 1 ≤ n by omega)
      rw [List.length_cons] at hslice hend hn
      rw [List.mem_cons, not_or] at hl
      obtain ⟨hhead, htail⟩ := slice_cons hslice
      rw [send, load, if_pos (show i < max by omega), ok_bind, hhead, if_neg (Ne.symm hl.1),
        ih htail hl.2 (by omega) (by omega)]
      rfl

/-- What is read from the pipe is in the array. -/
theorem readNum_cons (num : ℕ → ℕ) (hi : i < max) (a : ℕ) (pipe : List ℕ) :
    readNum max (a :: pipe) num i = .ok (pipe, Function.update num i a) ∧
      load max (Function.update num i a) i = .ok a := by
  rw [readNum, store, if_pos hi, load, if_pos hi, Function.update_self]
  exact ⟨rfl, rfl⟩

/-- The numbers are received up to the sentinel. -/
theorem receive_spec {l : List ℕ} (hl : max + 1 ∉ l) (hend : i + l.length < max)
    (hn : l.length < n) :
    ∃ num', receive max n i (l ++ [max + 1]) num = .ok (num', true) ∧
      slice num' i (l.length + 1) = l ++ [max + 1] ∧ ∀ k, k < i → num' k = num k := by
  induction l generalizing n i num with
  | nil =>
      obtain ⟨n, rfl⟩ := Nat.exists_eq_add_of_le' (show 1 ≤ n from hn)
      obtain ⟨hread, hload⟩ := readNum_cons num (show i < max from hend) (max + 1) []
      refine ⟨Function.update num i (max + 1), ?_, ?_, ?_⟩
      · rw [List.nil_append, receive, hread, ok_bind]
        dsimp only
        rw [hload, ok_bind, if_pos rfl]
        rfl
      · simp [slice]
      · exact fun k hk => Function.update_of_ne (by omega) _ _
  | cons a l ih =>
      obtain ⟨n, rfl⟩ := Nat.exists_eq_add_of_le' (show 1 ≤ n by omega)
      rw [List.length_cons] at hend hn
      rw [List.mem_cons, not_or] at hl
      obtain ⟨hread, hload⟩ := readNum_cons num (show i < max by omega) a (l ++ [max + 1])
      have hih := @ih n (i + 1) (Function.update num i a) hl.2 (by omega) (by omega)
      obtain ⟨num', hrest, hslice, hsame⟩ := hih
      refine ⟨num', ?_, ?_, ?_⟩
      · rw [List.cons_append, receive, hread, ok_bind]
        dsimp only
        rw [hload, ok_bind, if_neg (Ne.symm hl.1), hrest]
      · rw [List.length_cons, slice_succ, hslice, hsame i (Nat.lt_succ_self i),
          Function.update_self]
        rfl
      · intro k hk
        rw [hsame k (by omega), Function.update_of_ne (by omega)]

/-- What is stored at `i` or behind it does not matter for the front. -/
theorem front_update {j : ℕ} {kept : List ℕ} (hkept : slice num 0 j = kept) (hj : j ≤ i) (a : ℕ) :
    slice (Function.update num i a) 0 j = kept := by
  rw [← hkept]
  apply slice_congr
  intro k _ hk
  exact Function.update_of_ne (by omega) _ _

/-- The loop of the child after the first number `d`: the numbers that are kept go to the front
of the array, over numbers that are not needed any more. -/
theorem sift_spec {j d : ℕ} {l kept : List ℕ} (hkept : slice num 0 j = kept) (hj : j < i)
    (hd : d ≠ 0) (hl : max + 1 ∉ l) (hend : i + l.length < max) (hn : l.length < n) :
    ∃ num', sift max n i j (some d) (l ++ [max + 1]) num = .ok (num', true) ∧
      slice num' 0 (j + (l.filter fun a => a % d ≠ 0).length + 1)
        = kept ++ (l.filter fun a => a % d ≠ 0) ++ [max + 1] := by
  have hi : i ≠ 0 := by omega
  induction l generalizing n i j num kept with
  | nil =>
      obtain ⟨n, rfl⟩ := Nat.exists_eq_add_of_le' (show 1 ≤ n from hn)
      obtain ⟨hread, hload⟩ := readNum_cons num (show i < max from hend) (max + 1) []
      have hlt : j < max := hj.trans hend
      refine ⟨Function.update (Function.update num i (max + 1)) j (max + 1), ?_, ?_⟩
      · rw [List.nil_append, sift, hread, ok_bind]
        dsimp only
        rw [hload, ok_bind, if_pos rfl, store, if_pos hlt]
        rfl
      · rw [List.filter_nil, List.length_nil, Nat.add_zero, slice_update_concat,
          front_update hkept hj.le, List.append_nil]
  | cons a l ih =>
      obtain ⟨n, rfl⟩ := Nat.exists_eq_add_of_le' (show 1 ≤ n by omega)
      rw [List.length_cons] at hend hn
      rw [List.mem_cons, not_or] at hl
      obtain ⟨hread, hload⟩ := readNum_cons num (show i < max by omega) a (l ++ [max + 1])
      have hstep : sift max (n + 1) i j (some d) (a :: l ++ [max + 1]) num
          = if a % d ≠ 0 then
              sift max n (i + 1) (j + 1) (some d) (l ++ [max + 1])
                (Function.update (Function.update num i a) j a)
            else sift max n (i + 1) j (some d) (l ++ [max + 1]) (Function.update num i a) := by
        rw [List.cons_append, sift, hread, ok_bind]
        dsimp only
        rw [hload, ok_bind, if_neg (Ne.symm hl.1), if_neg hi, if_neg hd, store,
          if_pos (show j < max by omega)]
        rfl
      rw [hstep]
      by_cases hmod : a % d ≠ 0
      · have hnext : slice (Function.update (Function.update num i a) j a) 0 (j + 1)
            = kept ++ [a] := by
          rw [slice_update_concat, front_update hkept hj.le]
        obtain ⟨num', hrest, hslice⟩ := ih hnext (show j + 1 < i + 1 by omega) hl.2
          (show i + 1 + l.length < max by omega) (show l.length < n by omega) (Nat.succ_ne_zero i)
        refine ⟨num', by rw [if_pos hmod, hrest], ?_⟩
        rw [List.filter_cons_of_pos (by simpa using hmod), List.length_cons]
        rw [show j + ((l.filter fun a => a % d ≠ 0).length + 1) + 1
          = j + 1 + (l.filter fun a => a % d ≠ 0).length + 1 by omega, hslice]
        simp
      · obtain ⟨num', hrest, hslice⟩ :=
          ih (front_update hkept hj.le a) (show j < i + 1 by omega) hl.2
          (show i + 1 + l.length < max by omega) (show l.length < n by omega) (Nat.succ_ne_zero i)
        refine ⟨num', by rw [if_neg hmod, hrest], ?_⟩
        rw [List.filter_cons_of_neg (by simpa using hmod), hslice]

/-- The first number that the child reads is the divisor. -/
theorem sift_first {p : ℕ} {pipe : List ℕ} (hmax : 0 < max) (hp : p ≠ max + 1) :
    sift max (n + 1) 0 0 none (p :: pipe) num
      = sift max n 1 0 (some p) pipe (Function.update num 0 p) := by
  obtain ⟨hread, hload⟩ := readNum_cons num hmax p pipe
  rw [sift, hread, ok_bind]
  dsimp only
  rw [hload, ok_bind, if_neg hp, if_pos rfl]

end Loops

/-- The array holds the numbers `l` and the sentinel behind them. -/
structure Filled (max : ℕ) (num : ℕ → ℕ) (l : List ℕ) : Prop where
  slice_eq : slice num 0 (l.length + 1) = l ++ [max + 1]
  bound : ∀ a ∈ l, 2 ≤ a ∧ a ≤ max
  fits : l.length < max

/-- What a round with the numbers `p :: rest` does. -/
structure Round.Sound (max : ℕ) (r : Round) (p : ℕ) (rest : List ℕ) : Prop where
  prime : r.prime = p
  down : r.down = p :: rest ++ [max + 1]
  up : r.up = rest.filter (fun a => a % p ≠ 0) ++ [max + 1]
  stopped : r.stopped = [true, true, true, true]

section Rounds

variable {max p : ℕ} {num : ℕ → ℕ} {l rest : List ℕ}

theorem Filled.notMem (h : Filled max num l) : max + 1 ∉ l := by
  intro hmem
  have hle := (h.bound _ hmem).2
  omega

theorem Filled.load_zero (h : Filled max num l) :
    load max num 0 = .ok ((l ++ [max + 1]).headD 0) := by
  have hfits := h.fits
  have hslice := h.slice_eq
  rw [slice_succ] at hslice
  rw [load, if_pos (by omega), ← hslice]
  rfl

/-- A round takes the multiples of the first number out of the others. -/
theorem Filled.round (h : Filled max num (p :: rest)) :
    ∃ r num', round max num = .ok (r, num') ∧ r.Sound max p rest ∧
      Filled max num' (rest.filter fun a => a % p ≠ 0) := by
  have hfits := h.fits
  have hnot := h.notMem
  have hp := h.bound p List.mem_cons_self
  rw [List.length_cons] at hfits
  rw [List.mem_cons, not_or] at hnot
  have hfilter := List.length_filter_le (fun a => decide (a % p ≠ 0)) rest
  have hnotKept : max + 1 ∉ rest.filter fun a => a % p ≠ 0 :=
    fun hmem => hnot.2 (List.mem_of_mem_filter hmem)
  have hsend := send_spec (n := max) h.slice_eq h.notMem (by rw [List.length_cons]; omega)
    (by rw [List.length_cons]; omega)
  obtain ⟨childNum, hsift, hchild⟩ := sift_spec (n := max - 1) (i := 1) (l := rest)
    (slice_zero (Function.update num 0 p) 0) Nat.one_pos (show p ≠ 0 by omega) hnot.2 (by omega)
    (by omega)
  rw [← sift_first (by omega) (Ne.symm hnot.1), Nat.sub_add_cancel (show 1 ≤ max by omega)] at hsift
  rw [Nat.zero_add, List.nil_append] at hchild
  have hanswer := send_spec (n := max) hchild hnotKept (by omega) (by omega)
  obtain ⟨num', hreceive, hslice, -⟩ := @receive_spec max max 0 num _ hnotKept (by omega) (by omega)
  refine ⟨⟨p, p :: rest ++ [max + 1], rest.filter (fun a => a % p ≠ 0) ++ [max + 1],
    [true, true, true, true]⟩, num', ?_, ⟨rfl, rfl, rfl, rfl⟩, hslice, ?_, by omega⟩
  · rw [Primes.round, h.load_zero, ok_bind, hsend, ok_bind]
    dsimp only
    rw [List.cons_append] at *
    rw [hsift, ok_bind]
    dsimp only
    rw [hanswer, ok_bind]
    dsimp only
    rw [hreceive]
    rfl
  · exact fun a ha => h.bound a (List.mem_cons_of_mem _ (List.mem_of_mem_filter ha))

/-- The rounds print the primes that are left, one in each round. -/
theorem rounds_spec {m k : ℕ} (h : Filled max num (rough m max)) (hk : (rough m max).length ≤ k) :
    ∃ rs, (∀ fuel, k < fuel → rounds max fuel num = .ok (some rs)) ∧
      rs.map Round.prime = (rough m max).filter Nat.Prime ∧
      ∀ r ∈ rs, ∃ p rest, r.Sound max p rest ∧ max + 1 ∉ p :: rest ∧ (p :: rest).length < max := by
  induction k generalizing m num with
  | zero =>
      have hl := List.length_eq_zero_iff.mp (Nat.le_zero.mp hk)
      refine ⟨[], ?_, by rw [hl]; rfl, fun r hr => absurd hr List.not_mem_nil⟩
      intro fuel hfuel
      obtain ⟨fuel, rfl⟩ := Nat.exists_eq_add_of_le' (show 1 ≤ fuel from hfuel)
      rw [rounds, h.load_zero, ok_bind, hl, List.nil_append, List.headD_cons, if_neg (by omega)]
      rfl
  | succ k ih =>
      cases hl : rough m max with
      | nil =>
          refine ⟨[], ?_, rfl, fun r hr => absurd hr List.not_mem_nil⟩
          intro fuel hfuel
          obtain ⟨fuel, rfl⟩ := Nat.exists_eq_add_of_le' (show 1 ≤ fuel by omega)
          rw [rounds, h.load_zero, ok_bind, hl, List.nil_append, List.headD_cons, if_neg (by omega)]
          rfl
      | cons p rest =>
          rw [hl] at h hk
          have hshort := List.length_filter_le (fun a => decide (a % p ≠ 0)) rest
          obtain ⟨r, num', hround, hsound, hfilled⟩ := h.round
          rw [rough_next hl] at hfilled hshort
          rw [List.length_cons] at hk
          obtain ⟨rs, hrounds, hprimes, hall⟩ := ih hfilled (by omega)
          refine ⟨r :: rs, ?_, ?_, ?_⟩
          · intro fuel hfuel
            obtain ⟨fuel, rfl⟩ := Nat.exists_eq_add_of_le' (show 1 ≤ fuel by omega)
            rw [rounds, h.load_zero, ok_bind, List.cons_append, List.headD_cons,
              if_pos (h.bound p List.mem_cons_self).2, hround, ok_bind]
            dsimp only
            rw [hrounds fuel (by omega)]
            rfl
          · rw [← hl, primes_next hl, List.map_cons, hprimes, hsound.prime]
          · intro r' hr'
            rcases List.mem_cons.mp hr' with rfl | hr'
            · exact ⟨p, rest, hsound, h.notMem, h.fits⟩
            · exact hall r' hr'

theorem setup_spec {n i : ℕ} (hend : i + n ≤ max) :
    ∃ num', setup max n i num = .ok num' ∧ slice num' i n = List.range' (i + 2) n ∧
      ∀ k, k < i → num' k = num k := by
  induction n generalizing i num with
  | zero => exact ⟨num, rfl, rfl, fun _ _ => rfl⟩
  | succ n ih =>
      obtain ⟨num', hsetup, hslice, hsame⟩ := @ih (Function.update num i (i + 2)) (i + 1) (by omega)
      refine ⟨num', ?_, ?_, ?_⟩
      · rw [setup, store, if_pos (by omega), ok_bind, hsetup]
      · rw [slice_succ, hslice, hsame i (Nat.lt_succ_self i), Function.update_self,
          List.range'_succ]
      · intro k hk
        rw [hsame k (by omega), Function.update_of_ne (by omega)]

theorem primes_upTo (bound : ℕ) :
    (rough 1 (bound + 1)).filter Nat.Prime = (List.range (bound + 2)).filter Nat.Prime := by
  rw [rough_one, Nat.add_sub_cancel, List.range_eq_range', List.range'_succ, List.range'_succ,
    List.filter_cons_of_neg (by decide), List.filter_cons_of_neg (by decide)]

/-- For every `MAX` the program comes to an end and prints the primes up to `MAX`, in order.  In
every round both sides send the sentinel last, within the first `MAX` elements, and all four
loops stop at it. -/
theorem primes_prints_primes {max : ℕ} (hmax : 1 ≤ max) (num : ℕ → ℕ) :
    ∃ rs, (∀ fuel, max ≤ fuel → main max fuel num = .ok (some rs)) ∧
      rs.map Round.prime = (List.range (max + 1)).filter Nat.Prime ∧
      ∀ r ∈ rs, r.stopped = [true, true, true, true] ∧
        (∃ l, r.down = l ++ [max + 1] ∧ max + 1 ∉ l ∧ l.length < max) ∧
        ∃ l, r.up = l ++ [max + 1] ∧ max + 1 ∉ l ∧ l.length < max := by
  obtain ⟨bound, rfl⟩ := Nat.exists_eq_add_of_le' hmax
  obtain ⟨num', hsetup, hslice, -⟩ := @setup_spec (bound + 1) num (bound + 1) 0 (by omega)
  have hlength : (rough 1 (bound + 1)).length = bound := by
    rw [rough_one, List.length_range', Nat.add_sub_cancel]
  have hfilled : Filled (bound + 1) num' (rough 1 (bound + 1)) := by
    refine ⟨?_, ?_, by omega⟩
    · rw [hlength, hslice, rough_one, Nat.add_sub_cancel, List.range'_1_concat]
      congr 2
      omega
    · intro a ha
      obtain ⟨htwo, hle, -⟩ := mem_rough.mp ha
      exact ⟨htwo, hle⟩
  obtain ⟨rs, hrounds, hprimes, hall⟩ := rounds_spec hfilled hlength.le
  refine ⟨rs, ?_, ?_, ?_⟩
  · intro fuel hfuel
    rw [main, hsetup, ok_bind, hrounds fuel hfuel]
  · rw [hprimes, primes_upTo]
  · intro r hr
    obtain ⟨p, rest, hsound, hnot, hfits⟩ := hall r hr
    have hkept := List.length_filter_le (fun a => decide (a % p ≠ 0)) rest
    rw [List.length_cons] at hfits
    rw [List.mem_cons, not_or] at hnot
    refine ⟨hsound.stopped, ⟨p :: rest, hsound.down, ?_, hfits⟩, _, hsound.up, ?_, by omega⟩
    · rw [List.mem_cons, not_or]
      exact hnot
    · exact fun hmem => hnot.2 (List.mem_of_mem_filter hmem)

theorem primes_prints_primes_35 : ∃ rs, (∀ fuel, 35 ≤ fuel →
    main 35 fuel (fun _ => 0) = .ok (some rs)) ∧
      rs.map Round.prime = [2, 3, 5, 7, 11, 13, 17, 19, 23, 29, 31] := by
  obtain ⟨rs, hmain, hprimes, -⟩ := primes_prints_primes (show 1 ≤ 35 by decide) fun _ => 0
  refine ⟨rs, hmain, hprimes.trans ?_⟩
  decide

end Rounds

end OperateSystem.Primes
