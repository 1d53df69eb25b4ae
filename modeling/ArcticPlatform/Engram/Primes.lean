import Mathlib.FieldTheory.Finite.Basic
import Mathlib.NumberTheory.Bertrand

/-!
# Primes of the Engram tables

An embedding of `_is_prime` and `find_next_prime` of
`implementations/deepseek_v41/engram.py`.

Main results:

- Theorem `isPrime_of_prime`: every prime but 61 passes the test.
- Theorem `findNextPrime_spec`: the search ends, at the first number above the start that passes
  and has not been seen.
-/

namespace ArcticPlatform.Engram

open List

/-! ## The test -/

def smallPrimes : List Nat := [2, 3, 5, 7, 11, 13, 17, 19, 23, 29, 31, 37]

/-- `_MILLER_RABIN_BASES`. -/
def millerRabinBases : List Nat := [2, 7, 61]

/-- The loop that halves `d` and counts in `r`; it ends before as many rounds as `d`. -/
def halve : Nat → Nat → Nat → Nat × Nat
  | 0, d, r => (d, r)
  | fuel + 1, d, r => if d % 2 = 0 then halve fuel (d / 2) (r + 1) else (d, r)

/-- The loop that squares. -/
def squares (n : Nat) : Nat → Nat → Bool
  | 0, _ => false
  | rounds + 1, x => if x * x % n = n - 1 then true else squares n rounds (x * x % n)

/-- A number passes for one base. -/
def passes (n d r base : Nat) : Bool :=
  let x := base ^ d % n
  x = 1 || x = n - 1 || squares n (r - 1) x

/-- `_is_prime`. -/
def isPrime (n : Nat) : Bool :=
  if n < 2 then false
  else
    match smallPrimes.find? fun prime => n % prime = 0 with
    | some prime => n = prime
    | none => millerRabinBases.all (passes n (halve (n - 1) (n - 1) 0).1 (halve (n - 1) (n - 1) 0).2)

/-- The test refuses the prime 61, which is one of its bases. -/
example : isPrime 61 = false := by decide +kernel

theorem halve_spec (fuel d r : Nat) :
    ∃ j, (halve fuel d r).2 = r + j ∧ d = (halve fuel d r).1 * 2 ^ j := by
  induction fuel generalizing d r with
  | zero => exact ⟨0, rfl, (Nat.mul_one d).symm⟩
  | succ fuel ih =>
    rw [halve]
    split
    · rename_i heven
      obtain ⟨j, hr, hd⟩ := ih (d / 2) (r + 1)
      refine ⟨j + 1, by rw [hr]; omega, ?_⟩
      calc d = d / 2 * 2 := by omega
        _ = _ := by rw [pow_succ, ← Nat.mul_assoc, ← hd]
    · exact ⟨0, rfl, (Nat.mul_one d).symm⟩

theorem isPrime_odd {n : Nat} (h : isPrime n = true) : n = 2 ∨ n % 2 = 1 := by
  by_contra hneither
  have heven : n % 2 = 0 := by omega
  have hfind : smallPrimes.find? (fun prime => n % prime = 0) = some 2 := by
    simp [smallPrimes, heven]
  rw [isPrime, hfind] at h
  split at h
  · cases h
  · exact hneither (.inl (of_decide_eq_true h))

theorem two_le_of_isPrime {n : Nat} (h : isPrime n = true) : 2 ≤ n := by
  by_contra hlt
  rw [isPrime, if_pos (by omega)] at h
  cases h

/-! ## Powers modulo a prime -/

section Prime

variable {p : Nat} [Fact p.Prime]

theorem eq_pred_of_cast {x : Nat} (hx : x < p) (h : (x : ZMod p) = -1) : x = p - 1 := by
  have hpos : 0 < p := (Fact.out : p.Prime).pos
  have hcast : ((x + 1 : Nat) : ZMod p) = 0 := by rw [Nat.cast_add, h, Nat.cast_one, neg_add_cancel]
  have hdvd := (ZMod.natCast_eq_zero_iff _ _).mp hcast
  have hle := Nat.le_of_dvd (Nat.succ_pos x) hdvd
  omega

/-- Of the powers that lead to one by squaring, the first is one or some is minus one. -/
theorem one_or_neg_one (x : ZMod p) (j : Nat) (h : x ^ 2 ^ j = 1) :
    x = 1 ∨ ∃ i < j, x ^ 2 ^ i = -1 := by
  induction j with
  | zero => exact .inl (by simpa using h)
  | succ j ih =>
    rw [pow_succ, pow_mul, sq_eq_one_iff] at h
    rcases h with hone | hneg
    · rcases ih hone with hx | ⟨i, hi, hx⟩
      · exact .inl hx
      · exact .inr ⟨i, by omega, hx⟩
    · exact .inr ⟨j, by omega, hneg⟩

theorem squares_of_cast {x rounds i : Nat} (hpos : 0 < i) (hle : i ≤ rounds)
    (h : (x : ZMod p) ^ 2 ^ i = -1) : squares p rounds x = true := by
  induction rounds generalizing x i with
  | zero => omega
  | succ rounds ih =>
    have hcast : ((x * x % p : Nat) : ZMod p) = (x : ZMod p) ^ 2 := by
      rw [ZMod.natCast_mod, Nat.cast_mul, sq]
    rw [squares]
    split
    · rfl
    · rename_i hne
      obtain ⟨i, rfl⟩ := Nat.exists_eq_succ_of_ne_zero hpos.ne'
      rw [pow_succ', pow_mul, ← hcast] at h
      cases i with
      | zero =>
        rw [pow_zero, pow_one] at h
        exact absurd (eq_pred_of_cast (Nat.mod_lt _ (Fact.out : p.Prime).pos) h) hne
      | succ i => exact ih (Nat.succ_pos i) (by omega) h

theorem passes_of_prime {base d r j : Nat} (hbase : ¬ p ∣ base) (hr : r = j)
    (hd : p - 1 = d * 2 ^ j) : passes p d r base = true := by
  subst hr
  have hne : (base : ZMod p) ≠ 0 := fun h => hbase ((ZMod.natCast_eq_zero_iff _ _).mp h)
  have hpos : 0 < p := (Fact.out : p.Prime).pos
  have hcast : ((base ^ d % p : Nat) : ZMod p) = (base : ZMod p) ^ d := by
    rw [ZMod.natCast_mod, Nat.cast_pow]
  have hfermat : ((base : ZMod p) ^ d) ^ 2 ^ r = 1 := by
    rw [← pow_mul, ← hd]
    exact ZMod.pow_card_sub_one_eq_one hne
  simp only [passes, Bool.or_eq_true, decide_eq_true_eq]
  rcases one_or_neg_one _ _ hfermat with hone | ⟨i, hi, hneg⟩
  · refine .inl (.inl ?_)
    rw [← hcast, ← Nat.cast_one, ZMod.natCast_eq_natCast_iff', Nat.mod_mod,
      Nat.mod_eq_of_lt (Fact.out : p.Prime).one_lt] at hone
    exact hone
  · rw [← hcast] at hneg
    cases i with
    | zero => exact .inl (.inr (eq_pred_of_cast (Nat.mod_lt _ hpos) (by simpa using hneg)))
    | succ i => exact .inr (squares_of_cast (Nat.succ_pos i) (by omega) hneg)

end Prime

/-- Every prime but 61 passes. -/
theorem isPrime_of_prime {p : Nat} (hp : p.Prime) (h61 : p ≠ 61) : isPrime p = true := by
  have : Fact p.Prime := ⟨hp⟩
  rw [isPrime, if_neg (not_lt.mpr hp.two_le)]
  split
  · rename_i q hq
    have hmem := mem_of_find?_eq_some hq
    have hdvd : q ∣ p := Nat.dvd_of_mod_eq_zero (by simpa using find?_some hq)
    have hone : q ≠ 1 := by
      rintro rfl
      simp [smallPrimes] at hmem
    exact decide_eq_true ((hp.eq_one_or_self_of_dvd q hdvd).resolve_left hone).symm
  · rename_i hnone
    have hsmall : ∀ q ∈ smallPrimes, ¬ p ∣ q := by
      intro q hq hdvd
      have hprime : q.Prime := by
        simp only [smallPrimes, mem_cons, not_mem_nil, or_false] at hq
        rcases hq with rfl | rfl | rfl | rfl | rfl | rfl | rfl | rfl | rfl | rfl | rfl | rfl <;> norm_num
      have heq := (hprime.eq_one_or_self_of_dvd p hdvd).resolve_left hp.one_lt.ne'
      have hmod := find?_eq_none.mp hnone q hq
      simp [heq] at hmod
    obtain ⟨j, hr, hd⟩ := halve_spec (p - 1) (p - 1) 0
    rw [List.all_eq_true]
    intro base hbase
    refine passes_of_prime ?_ (by rw [hr, Nat.zero_add]) hd
    simp only [millerRabinBases, mem_cons, not_mem_nil, or_false] at hbase
    rcases hbase with rfl | rfl | rfl
    · exact hsmall 2 (by simp [smallPrimes])
    · exact hsmall 7 (by simp [smallPrimes])
    · intro hdvd
      have h61' : Nat.Prime 61 := by norm_num
      exact h61 ((h61'.eq_one_or_self_of_dvd p hdvd).resolve_left hp.one_lt.ne')

/-! ## The search -/

/-- The loop over the candidates. -/
def search (seen : List Nat) : Nat → Nat → Nat
  | 0, candidate => candidate
  | fuel + 1, candidate =>
    if isPrime candidate && !seen.contains candidate then candidate
    else search seen fuel (candidate + 1)

/-- `find_next_prime`.  Candidates below zero do not pass; a prime comes before the rounds end. -/
def findNextPrime (start : Int) (seen : List Nat) : Nat :=
  search seen (2 * ((start + 1).toNat + seen.sum + 61) + 1) (start + 1).toNat

theorem search_spec {seen : List Nat} {fuel candidate p : Nat} (hle : candidate ≤ p)
    (hlt : p < candidate + fuel) (hp : isPrime p = true) (hseen : p ∉ seen) :
    candidate ≤ search seen fuel candidate ∧ isPrime (search seen fuel candidate) = true ∧
      search seen fuel candidate ∉ seen ∧
      ∀ x, candidate ≤ x → x < search seen fuel candidate → isPrime x = true → x ∈ seen := by
  induction fuel generalizing candidate with
  | zero => omega
  | succ fuel ih =>
    rw [search]
    split
    · rename_i hfound
      simp only [Bool.and_eq_true, Bool.not_eq_true', contains_eq_mem,
        decide_eq_false_iff_not] at hfound
      exact ⟨le_rfl, hfound.1, hfound.2, fun x hx hx' => by omega⟩
    · rename_i hnot
      have hne : p ≠ candidate := by
        rintro rfl
        exact hnot (by simp [hp, hseen])
      obtain ⟨hle', hprime, hnew, hfirst⟩ := ih (by omega : candidate + 1 ≤ p) (by omega)
      refine ⟨by omega, hprime, hnew, fun x hx hx' hxp => ?_⟩
      rcases hx.eq_or_lt with rfl | hlt'
      · by_contra hout
        exact hnot (by simp [hxp, hout])
      · exact hfirst x hlt' hx' hxp

/-- The result is the first number above the start that passes and has not been seen. -/
theorem findNextPrime_spec (start : Int) (seen : List Nat) :
    start < findNextPrime start seen ∧ isPrime (findNextPrime start seen) = true ∧
      findNextPrime start seen ∉ seen ∧
      ∀ x : Nat, start < x → x < findNextPrime start seen → isPrime x = true → x ∈ seen := by
  obtain ⟨p, hp, hlt, hle⟩ := Nat.exists_prime_lt_and_le_two_mul ((start + 1).toNat + seen.sum + 61)
    (by omega)
  have hseen : p ∉ seen := by
    intro hmem
    have hsum := single_le_sum (fun _ _ => Nat.zero_le _) p hmem
    omega
  have hspec : (start + 1).toNat ≤ findNextPrime start seen ∧ isPrime (findNextPrime start seen) = true ∧
      findNextPrime start seen ∉ seen ∧ ∀ x, (start + 1).toNat ≤ x → x < findNextPrime start seen →
        isPrime x = true → x ∈ seen :=
    search_spec (by omega) (by omega) (isPrime_of_prime hp (by omega)) hseen
  obtain ⟨hstart, hprime, hnew, hfirst⟩ := hspec
  exact ⟨by omega, hprime, hnew, fun x hx => hfirst x (by omega)⟩

end ArcticPlatform.Engram
