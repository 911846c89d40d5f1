import AetherClient.LittleEndian
import Mathlib.Data.Finset.Card
import Mathlib.Order.Interval.Finset.Nat

set_option autoImplicit false

/-!
# Proof of work

A candidate is a counter of four bytes that `operator++` increments byte by byte. The search goes
through the numbers from one on until the pool is full, and does not start over for the next
solution. bcrypt and the checksum of its result are a parameter, `computeHash`.
-/
namespace AetherClient

open LittleEndian

structure Password where
  val : List UInt8
  size : val.length = 4

namespace Password

/-- The loop of `operator++`: a byte that is full becomes zero and the next one is incremented. -/
def carry : List UInt8 → List UInt8
  | [] => []
  | v :: rest => if v < 255 then (v + 1) :: rest else 0 :: carry rest

theorem length_carry (bytes : List UInt8) : (carry bytes).length = bytes.length := by
  induction bytes with
  | nil => rfl
  | cons v rest ih =>
    rw [carry]
    split
    · rfl
    · rw [List.length_cons, List.length_cons, ih]

theorem ofBytes_carry (bytes : List UInt8) :
    ofBytes (carry bytes) = (ofBytes bytes + 1) % 256 ^ bytes.length := by
  induction bytes with
  | nil => rfl
  | cons v rest ih =>
    have hrest := ofBytes_lt rest
    have hpow : 256 ^ (v :: rest).length = 256 * 256 ^ rest.length := Nat.pow_succ'
    rw [carry, hpow]
    split
    · next hlt =>
      have hv : v.toNat < 255 := UInt8.lt_iff_toNat_lt.mp hlt
      have hnext : (v + 1).toNat = v.toNat + 1 := by
        rw [UInt8.toNat_add]
        exact Nat.mod_eq_of_lt (by change v.toNat + 1 < 256; omega)
      rw [ofBytes, ofBytes, hnext, Nat.mod_eq_of_lt (by omega)]
      omega
    · next hge =>
      have hv : v.toNat = 255 := by
        have hlt := v.toNat_lt
        have hno : ¬v.toNat < 255 := fun h => hge (UInt8.lt_iff_toNat_lt.mpr h)
        omega
      have hsum : v.toNat + 256 * ofBytes rest + 1 = 256 * (ofBytes rest + 1) := by omega
      rw [ofBytes, ofBytes, ih, hsum, Nat.mul_mod_mul_left]
      exact Nat.zero_add _

def zero : Password := ⟨[0, 0, 0, 0], rfl⟩

def next (p : Password) : Password := ⟨carry p.val, (length_carry p.val).trans p.size⟩

def get (p : Password) : ℕ := ofBytes p.val

theorem get_zero : zero.get = 0 := rfl

theorem get_next {p : Password} (h : p.get + 1 < 2 ^ 32) : p.next.get = p.get + 1 := by
  have hpow : 256 ^ p.val.length = 2 ^ 32 := by rw [p.size]; norm_num
  rw [get, next, ofBytes_carry, hpow]
  exact Nat.mod_eq_of_lt h

end Password

namespace ProofOfWork

def computePassword (val : ℕ) (passwordSuffix : String) : String := toString val ++ passwordSuffix

section Loops
variable (accepts : ℕ → Bool)

def search : ℕ → Password → Option Password
  | 0, _ => none
  | turns + 1, pass => if accepts pass.next.get then some pass.next else search turns pass.next

def fill (turns : ℕ) : ℕ → Password → Option (List ℕ)
  | 0, _ => some []
  | rest + 1, pass =>
    (search accepts turns pass).bind fun pass =>
      (fill turns rest pass).map fun result => pass.get :: result

end Loops

def accepts (computeHash : String → String → BitVec 32) (salt passwordSuffix : String)
    (maxHashValue : BitVec 32) (val : ℕ) : Bool :=
  computeHash (computePassword val passwordSuffix) salt ≤ maxHashValue

/-- With so many turns for each solution. -/
def computeProofOfWork (computeHash : String → String → BitVec 32) (turns poolSize : ℕ)
    (salt passwordSuffix : String) (maxHashValue : BitVec 32) : Option (List ℕ) :=
  fill (accepts computeHash salt passwordSuffix maxHashValue) turns poolSize .zero

def solutions (accepts : ℕ → Bool) (low : ℕ) : Finset ℕ :=
  (Finset.Ioo low (2 ^ 32)).filter fun n => accepts n

structure Smallest (accepts : ℕ → Bool) (low : ℕ) (result : List ℕ) : Prop where
  increasing : result.Pairwise (· < ·)
  solves : ∀ n ∈ result, n ∈ solutions accepts low
  first : ∀ n ∈ solutions accepts low, n ∉ result → ∀ m ∈ result, m < n

section Search
variable {accepts : ℕ → Bool}

theorem mem_solutions {low n : ℕ} :
    n ∈ solutions accepts low ↔ (low < n ∧ n < 2 ^ 32) ∧ accepts n = true := by
  rw [solutions, Finset.mem_filter, Finset.mem_Ioo]

theorem search_spec {turns n : ℕ} {pass : Password} (hn : n ∈ solutions accepts pass.get)
    (hturns : n ≤ pass.get + turns) : ∃ found, search accepts turns pass = some found ∧
      found.get ∈ solutions accepts pass.get ∧
      ∀ m ∈ solutions accepts pass.get, found.get ≤ m := by
  induction turns generalizing pass with
  | zero =>
    have hlt := (mem_solutions.mp hn).1.1
    omega
  | succ turns ih =>
    obtain ⟨⟨hlow, hhigh⟩, hacc⟩ := mem_solutions.mp hn
    have hnext : pass.next.get = pass.get + 1 := Password.get_next (by omega)
    rw [search]
    by_cases hyes : accepts pass.next.get = true
    · rw [if_pos hyes]
      refine ⟨pass.next, rfl, mem_solutions.mpr ⟨by omega, hyes⟩, ?_⟩
      intro m hm
      have hm := (mem_solutions.mp hm).1.1
      omega
    · rw [if_neg hyes]
      -- the next number is no solution, so the solutions above are the same
      have hsame : ∀ m, m ∈ solutions accepts pass.next.get ↔ m ∈ solutions accepts pass.get := by
        intro m
        rw [mem_solutions, mem_solutions, hnext]
        constructor
        · rintro ⟨hm, hacc⟩
          exact ⟨by omega, hacc⟩
        · rintro ⟨hm, hacc⟩
          have hne : m ≠ pass.get + 1 := by
            rintro rfl
            exact hyes (hnext ▸ hacc)
          exact ⟨by omega, hacc⟩
      obtain ⟨found, hfound, hmem, hleast⟩ := ih ((hsame n).mpr hn) (by omega)
      exact ⟨found, hfound, (hsame _).mp hmem, fun m hm => hleast m ((hsame m).mpr hm)⟩

theorem solutions_of_next {low n : ℕ} (hn : n ∈ solutions accepts low)
    (hleast : ∀ m ∈ solutions accepts low, n ≤ m) (m : ℕ) :
    m ∈ solutions accepts low ↔ m = n ∨ m ∈ solutions accepts n := by
  have hlow := (mem_solutions.mp hn).1.1
  constructor
  · intro hm
    obtain heq | hlt := (hleast m hm).eq_or_lt
    · exact .inl heq.symm
    · obtain ⟨⟨-, hhigh⟩, hacc⟩ := mem_solutions.mp hm
      exact .inr (mem_solutions.mpr ⟨⟨hlt, hhigh⟩, hacc⟩)
  · rintro (rfl | hm)
    · exact hn
    · obtain ⟨⟨hlt, hhigh⟩, hacc⟩ := mem_solutions.mp hm
      exact mem_solutions.mpr ⟨⟨hlow.trans hlt, hhigh⟩, hacc⟩

theorem card_solutions_of_next {low n : ℕ} (hn : n ∈ solutions accepts low)
    (hleast : ∀ m ∈ solutions accepts low, n ≤ m) :
    (solutions accepts low).card = (solutions accepts n).card + 1 := by
  have hself : n ∉ solutions accepts n := fun h => (mem_solutions.mp h).1.1.false
  have hinsert : solutions accepts low = insert n (solutions accepts n) := by
    ext m
    rw [Finset.mem_insert]
    exact solutions_of_next hn hleast m
  rw [hinsert, Finset.card_insert_of_notMem hself]

theorem Smallest.cons {low n : ℕ} {result : List ℕ} (hn : n ∈ solutions accepts low)
    (hleast : ∀ m ∈ solutions accepts low, n ≤ m) (h : Smallest accepts n result) :
    Smallest accepts low (n :: result) where
  increasing := by
    refine List.pairwise_cons.mpr ⟨?_, h.increasing⟩
    intro m hm
    exact (mem_solutions.mp (h.solves m hm)).1.1
  solves := by
    intro m hm
    rw [solutions_of_next hn hleast]
    exact (List.mem_cons.mp hm).imp_right (h.solves m)
  first := by
    intro m hm hnot k hk
    rw [List.mem_cons, not_or] at hnot
    have hm' := ((solutions_of_next hn hleast m).mp hm).resolve_left hnot.1
    obtain rfl | hk := List.mem_cons.mp hk
    · exact (mem_solutions.mp hm').1.1
    · exact h.first m hm' hnot.2 k hk

theorem fill_spec {turns rest : ℕ} {pass : Password} (hturns : 2 ^ 32 ≤ turns)
    (hrest : rest ≤ (solutions accepts pass.get).card) : ∃ result,
      fill accepts turns rest pass = some result ∧ result.length = rest ∧
        Smallest accepts pass.get result := by
  induction rest generalizing pass with
  | zero => exact ⟨[], rfl, rfl, List.Pairwise.nil, nofun, fun _ _ _ => nofun⟩
  | succ rest ih =>
    obtain ⟨n, hn⟩ := Finset.card_pos.mp (Nat.zero_lt_of_lt hrest)
    have hbound := (mem_solutions.mp hn).1.2
    have hreach : n ≤ pass.get + turns := by omega
    obtain ⟨found, hfound, hmem, hleast⟩ := search_spec hn hreach
    have hcard := card_solutions_of_next hmem hleast
    have hleft : rest ≤ (solutions accepts found.get).card := by omega
    obtain ⟨result, hresult, hlength, hsmallest⟩ := ih hleft
    refine ⟨found.get :: result, ?_, by rw [List.length_cons, hlength], hsmallest.cons hmem hleast⟩
    rw [fill, hfound, Option.bind_some, hresult, Option.map_some]

end Search

/-- If there are enough solutions, the pool is filled with the smallest of them, and no inner loop
takes more turns than there are candidates. -/
theorem computeProofOfWork_smallest (computeHash : String → String → BitVec 32)
    (salt passwordSuffix : String) (maxHashValue : BitVec 32) {turns poolSize : ℕ}
    (hturns : 2 ^ 32 ≤ turns) (hpool : poolSize ≤
      (solutions (accepts computeHash salt passwordSuffix maxHashValue) 0).card) :
    ∃ result,
      computeProofOfWork computeHash turns poolSize salt passwordSuffix maxHashValue = some result ∧
      result.length = poolSize ∧
      Smallest (accepts computeHash salt passwordSuffix maxHashValue) 0 result := by
  rw [← Password.get_zero] at hpool ⊢
  exact fill_spec hturns hpool

/-- A hash that only two passwords pass. -/
theorem computeProofOfWork_smallest_two :
    2 ≤ (solutions (accepts (fun pass _ => if pass ∈ ["2!", "5!"] then 0 else 7) "salt" "!" 6) 0).card ∧
    ∃ result, computeProofOfWork (fun pass _ => if pass ∈ ["2!", "5!"] then 0 else 7) (2 ^ 32) 2
        "salt" "!" 6 = some result ∧ result.length = 2 ∧
      Smallest (accepts (fun pass _ => if pass ∈ ["2!", "5!"] then 0 else 7) "salt" "!" 6) 0 result := by
  have hsub : ({2, 5} : Finset ℕ) ⊆
      solutions (accepts (fun pass _ => if pass ∈ ["2!", "5!"] then 0 else 7) "salt" "!" 6) 0 := by
    intro n hn
    rw [mem_solutions]
    obtain rfl | rfl : n = 2 ∨ n = 5 := by simpa using hn
    · exact ⟨by decide, by decide +kernel⟩
    · exact ⟨by decide, by decide +kernel⟩
  have hpool := Finset.card_le_card hsub
  exact ⟨hpool, computeProofOfWork_smallest _ _ _ _ (Nat.le_refl _) hpool⟩

end ProofOfWork
end AetherClient
