import Mathlib.Data.List.Sort
import Mathlib.Data.Nat.Prime.Basic

/-!
# Sieving by trial division

What is left of the numbers up to a bound when the multiples of the primes up to `m` have
been taken out are the numbers whose least prime factor is above `m`.  The first of them
is the next prime.
-/

namespace OperateSystem.Sieve

/-- The numbers from 2 to `bound` without a prime factor up to `m`. -/
def rough (m bound : ℕ) : List ℕ := (List.range' 2 (bound - 1)).filter fun n => m < n.minFac

variable {m bound p : ℕ} {rest : List ℕ}

theorem mem_rough {n : ℕ} : n ∈ rough m bound ↔ 2 ≤ n ∧ n ≤ bound ∧ m < n.minFac := by
  rw [rough, List.mem_filter, List.mem_range'_1, decide_eq_true_iff]
  omega

theorem rough_sorted (m bound : ℕ) : (rough m bound).Pairwise (· < ·) :=
  List.Pairwise.filter _ (List.pairwise_lt_range' 1)

theorem rough_one (bound : ℕ) : rough 1 bound = List.range' 2 (bound - 1) := by
  rw [rough, List.filter_eq_self]
  intro n hn
  rw [List.mem_range'_1] at hn
  rw [decide_eq_true_iff]
  exact (Nat.minFac_prime (by omega)).one_lt

/-- The least prime factor of a number that is left is left as well. -/
theorem minFac_mem_rough {n : ℕ} (h : n ∈ rough m bound) : n.minFac ∈ rough m bound := by
  obtain ⟨htwo, hle, hm⟩ := mem_rough.mp h
  have hprime := Nat.minFac_prime (show n ≠ 1 by omega)
  rw [mem_rough, hprime.minFac_eq]
  exact ⟨hprime.two_le, (Nat.minFac_le (by omega)).trans hle, hm⟩

theorem head_le (h : rough m bound = p :: rest) {n : ℕ} (hn : n ∈ rough m bound) : p ≤ n := by
  have hsorted := rough_sorted m bound
  rw [h] at hn hsorted
  rcases List.mem_cons.mp hn with rfl | hmem
  · exact le_refl _
  · exact (List.rel_of_pairwise_cons hsorted hmem).le

/-- The first number that is left is prime. -/
theorem head_prime (h : rough m bound = p :: rest) : p.Prime ∧ m < p := by
  have hmem : p ∈ rough m bound := by
    rw [h]
    exact List.mem_cons_self
  obtain ⟨htwo, -, hm⟩ := mem_rough.mp hmem
  have heq : p.minFac = p :=
    le_antisymm (Nat.minFac_le (by omega)) (head_le h (minFac_mem_rough hmem))
  rw [heq] at hm
  exact ⟨Nat.prime_def_minFac.mpr ⟨htwo, heq⟩, hm⟩

/-- Taking the multiples of the first number out of the others is the next round. -/
theorem rough_next (h : rough m bound = p :: rest) :
    rest.filter (fun n => n % p ≠ 0) = rough p bound := by
  obtain ⟨hprime, hmp⟩ := head_prime h
  have hself : (rough m bound).filter (fun n => n % p ≠ 0) = rest.filter fun n => n % p ≠ 0 := by
    rw [h, List.filter_cons_of_neg]
    simp
  rw [← hself, rough, rough, List.filter_filter]
  apply List.filter_congr
  intro n hn
  rw [List.mem_range'_1] at hn
  rw [← Bool.decide_and, decide_eq_decide]
  constructor
  · rintro ⟨hdvd, hm⟩
    have hmem : n ∈ rough m bound := mem_rough.mpr ⟨by omega, by omega, hm⟩
    apply lt_of_le_of_ne (head_le h (minFac_mem_rough hmem))
    intro heq
    apply hdvd
    rw [heq]
    exact Nat.mod_eq_zero_of_dvd (Nat.minFac_dvd n)
  · intro hp
    refine ⟨fun hzero => ?_, hmp.trans hp⟩
    have hle := Nat.minFac_le_of_dvd hprime.two_le (Nat.dvd_of_mod_eq_zero hzero)
    omega

/-- The primes that are left are the first number and those of the next round. -/
theorem primes_next (h : rough m bound = p :: rest) :
    (rough m bound).filter Nat.Prime = p :: (rough p bound).filter Nat.Prime := by
  obtain ⟨hprime, -⟩ := head_prime h
  have hsorted := rough_sorted m bound
  rw [h] at hsorted
  rw [← rough_next h, h, List.filter_cons_of_pos (by simpa using hprime), List.filter_filter]
  congr 1
  apply List.filter_congr
  intro n hn
  have hlt := List.rel_of_pairwise_cons hsorted hn
  by_cases hn' : n.Prime
  · have hmod : n % p ≠ 0 := by
      intro hzero
      have hdvd := Nat.dvd_of_mod_eq_zero hzero
      rcases (Nat.dvd_prime hn').mp hdvd with hone | heq
      · exact hprime.one_lt.ne' hone
      · omega
    simp [hn', hmod]
  · simp [hn']

end OperateSystem.Sieve
