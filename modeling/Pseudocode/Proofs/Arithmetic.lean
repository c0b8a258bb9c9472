import Mathlib.Data.Int.ModEq
import Pseudocode.Proofs.Domain
import Pseudocode.Proofs.Numbering

/-!
# Arithmetic modulo 2^64

Machines calculate with integers of 64 bits, and every step wraps around. For sums, differences and
products this is as good as one reduction at the end: the value of an expression of any depth is the
one integer of 64 bits that is congruent to its value over the integers. A quotient is cut toward
zero and wraps in one case only, and a truth value needs no reduction.

## Main definitions

* `WrapsTo`: the integer of 64 bits that an integer is reduced to.
* `Operator.exact`, `Tree.exact`: operators and trees over the integers.
* `Tree.IsPolynomial`: trees of sums, differences and products.
* `Operator.Gives`: what an operator gives on two integers of 64 bits.

## Main results

* `Operator.value?_modEq`: an operator is exact modulo 2^64.
* `Tree.IsPolynomial.exists_run`: so is a tree of sums, differences and products.
* `Tree.arithmetic_exact`: what operators give, and how they fail.
-/

namespace Pseudocode

/-! ### Reduction to 64 bits -/

/-- Of all integers from -2^63 up to 2^63, that one excluded, `r` alone is congruent to `z` modulo
2^64. -/
def WrapsTo (z : ℤ) (r : Int64) : Prop :=
  ∀ k : ℤ, -2 ^ 63 ≤ k ∧ k < 2 ^ 63 ∧ k ≡ z [ZMOD 2 ^ 64] ↔ k = r.toInt

theorem wrapsTo_of_modEq {z : ℤ} {r : Int64} (h : r.toInt ≡ z [ZMOD 2 ^ 64]) : WrapsTo z r := by
  intro k
  have hlower := r.le_toInt
  have hupper := r.toInt_lt
  constructor
  · rintro ⟨hk, hk', hmod⟩
    have heq := hmod.trans h.symm
    unfold Int.ModEq at heq
    omega
  · rintro rfl
    exact ⟨hlower, hupper, h⟩

theorem bmod_modEq (z : ℤ) : z.bmod (2 ^ 64) ≡ z [ZMOD 2 ^ 64] :=
  Int.bmod_emod

theorem toInt_ofTruth (b : Bool) : (ofTruth b).toInt = if b then 1 else 0 := by
  cases b <;> rfl

theorem truthy_eq (v : Int64) : truthy v = decide (v.toInt ≠ 0) := by
  rw [truthy, decide_eq_decide, ← Int64.toInt_zero]
  exact not_congr Int64.toInt_inj.symm

/-! ### Operators over the integers -/

namespace Operator

/-- The value of an operator over the integers. A quotient is cut toward zero, and a truth value is
0 or 1. -/
def exact (op : Operator) (a b : ℤ) : ℤ :=
  match op with
  | add => a + b
  | subtract => a - b
  | multiply => a * b
  | divide => a.tdiv b
  | less => if a < b then 1 else 0
  | greater => if a > b then 1 else 0
  | lessOrEqual => if a ≤ b then 1 else 0
  | greaterOrEqual => if a ≥ b then 1 else 0
  | equal => if a = b then 1 else 0
  | notEqual => if a ≠ b then 1 else 0
  | and => if a ≠ 0 ∧ b ≠ 0 then 1 else 0
  | or => if a ≠ 0 ∨ b ≠ 0 then 1 else 0
  | not => if a = 0 then 1 else 0

/-- Sums, differences and products. -/
def isRing : Operator → Bool
  | add | subtract | multiply => true
  | _ => false

/-- Comparisons and what combines truth values. -/
def isTruth : Operator → Bool
  | add | subtract | multiply | divide => false
  | _ => true

variable {op : Operator} {a b r : Int64}

/-- A truth value needs no reduction. -/
theorem toInt_of_isTruth (hop : op.isTruth = true) (h : op.value? a b = some r) :
    r.toInt = op.exact a.toInt b.toInt := by
  cases op <;> cases hop <;> cases h <;> rw [toInt_ofTruth] <;>
    simp [exact, truthy_eq, Int64.lt_iff_toInt_lt, Int64.le_iff_toInt_le, ← Int64.toInt_inj]

theorem exact_of_isTruth (hop : op.isTruth = true) (x y : ℤ) :
    op.exact x y = 0 ∨ op.exact x y = 1 := by
  cases op <;> cases hop <;> simp only [exact] <;> split <;> simp

/-- An operator is exact modulo 2^64. -/
theorem value?_modEq (h : op.value? a b = some r) :
    r.toInt ≡ op.exact a.toInt b.toInt [ZMOD 2 ^ 64] := by
  by_cases hop : op.isTruth = true
  · rw [toInt_of_isTruth hop h]
  cases op with
  | add =>
    cases h
    rw [Int64.toInt_add]
    exact bmod_modEq _
  | subtract =>
    cases h
    rw [Int64.toInt_sub]
    exact bmod_modEq _
  | multiply =>
    cases h
    rw [Int64.toInt_mul]
    exact bmod_modEq _
  | divide =>
    rw [value?, ite_eq_iff] at h
    obtain ⟨-, h⟩ | ⟨-, h⟩ := h
    · cases h
    · cases h
      rw [Int64.toInt_div]
      exact bmod_modEq _
  | _ => exact absurd rfl hop

/-- Sums, differences and products may be reduced before or after. -/
theorem exact_modEq (hop : op.isRing = true) {x x' y y' : ℤ} (hx : x ≡ x' [ZMOD 2 ^ 64])
    (hy : y ≡ y' [ZMOD 2 ^ 64]) : op.exact x y ≡ op.exact x' y' [ZMOD 2 ^ 64] := by
  cases op with
  | add => exact hx.add hy
  | subtract => exact hx.sub hy
  | multiply => exact hx.mul hy
  | _ => cases hop

theorem isUnary_of_isRing (hop : op.isRing = true) : op.isUnary = false := by
  cases op <;> cases hop <;> rfl

/-- Sums, differences and products always have a value. -/
theorem exists_value?_of_isRing (hop : op.isRing = true) (a b : Int64) :
    ∃ r, op.value? a b = some r := by
  cases op <;> cases hop <;> exact ⟨_, rfl⟩

/-- The smallest integer divided by -1 is the one quotient that does not fit. -/
theorem toInt_div_eq_iff (a b : Int64) :
    (a / b).toInt = a.toInt.tdiv b.toInt ↔ ¬ (a.toInt = -2 ^ 63 ∧ b.toInt = -1) := by
  have hmin : a.toInt = -2 ^ 63 ↔ a = Int64.minValue := by
    rw [← Int64.toInt_minValue, Int64.toInt_inj]
  have hone : b.toInt = -1 ↔ b = -1 := by
    rw [show (-1 : ℤ) = Int64.toInt (-1) from rfl, Int64.toInt_inj]
  rw [hmin, hone]
  constructor
  · rintro h ⟨rfl, rfl⟩
    revert h
    decide
  · intro h
    by_cases ha : a = Int64.minValue
    · exact Int64.toInt_div_of_ne_right a b fun hb ↦ h ⟨ha, hb⟩
    · exact Int64.toInt_div_of_ne_left a b ha

/-! ### What an operator gives -/

/-- What the operator that is written at `span` gives on two integers of 64 bits. -/
structure Gives (op : Operator) (span : Span) (a b : Int64) (result : Except Fault Int64) :
    Prop where
  /-- Nothing but a division by zero fails. -/
  fails_iff : (∃ fault, result = .error fault) ↔ op = .divide ∧ b = 0
  /-- It tells where. -/
  fault_eq : ∀ fault, result = .error fault → fault = .divisionByZero span
  /-- The value is the reduced value over the integers. -/
  wraps : ∀ r, result = .ok r → WrapsTo (op.exact a.toInt b.toInt) r
  /-- One quotient is changed by the reduction, and it becomes the dividend. -/
  quotient : ∀ r, result = .ok r → op = .divide →
    (r.toInt = a.toInt.tdiv b.toInt ↔ ¬ (a.toInt = -2 ^ 63 ∧ b.toInt = -1)) ∧
      (a.toInt = -2 ^ 63 ∧ b.toInt = -1 → r.toInt = -2 ^ 63)
  /-- Truth values are 0 and 1, and the reduction does not change them. -/
  truth : ∀ r, result = .ok r → op.isTruth = true →
    r.toInt = op.exact a.toInt b.toInt ∧ (r = 0 ∨ r = 1)

theorem gives_of_value? {span : Span} (h : op.value? a b = some r) :
    op.Gives span a b (.ok r) where
  fails_iff := by
    rw [← value?_eq_none_iff, h]
    simp
  fault_eq := by rintro _ ⟨⟩
  wraps := by
    rintro _ ⟨⟩
    exact wrapsTo_of_modEq (value?_modEq h)
  quotient := by
    rintro _ ⟨⟩ rfl
    rw [value?, ite_eq_iff] at h
    obtain ⟨-, h⟩ | ⟨-, h⟩ := h
    · cases h
    · cases h
      refine ⟨toInt_div_eq_iff a b, ?_⟩
      rintro ⟨ha, hb⟩
      rw [Int64.toInt_div, ha, hb]
      rfl
  truth := by
    rintro _ ⟨⟩ hop
    have htoInt := toInt_of_isTruth hop h
    refine ⟨htoInt, ?_⟩
    rw [← Int64.toInt_inj, ← Int64.toInt_inj, htoInt]
    exact exact_of_isTruth hop a.toInt b.toInt

theorem gives_of_value?_eq_none {span : Span} (h : op.value? a b = none) :
    op.Gives span a b (.error (.divisionByZero span)) where
  fails_iff := ⟨fun _ ↦ value?_eq_none_iff.1 h, fun _ ↦ ⟨_, rfl⟩⟩
  fault_eq := by
    rintro _ ⟨⟩
    rfl
  wraps := by rintro _ ⟨⟩
  quotient := by rintro _ ⟨⟩
  truth := by rintro _ ⟨⟩

theorem operate_of_value? (h : op.value? a b = some r) (span : Span) (m : Machine) :
    Tree.operate op span a b m = some (.ok r, m) := by
  rw [Tree.operate, h]
  rfl

/-- Operators end without a change. -/
theorem exists_gives (op : Operator) (span : Span) (a b : Int64) :
    ∃ result, op.Gives span a b result ∧ ∀ m, Tree.operate op span a b m = some (result, m) := by
  cases h : op.value? a b with
  | none =>
    refine ⟨_, gives_of_value?_eq_none h, fun m ↦ ?_⟩
    rw [Tree.operate, h]
    rfl
  | some r => exact ⟨_, gives_of_value? h, fun m ↦ operate_of_value? h span m⟩

end Operator

/-! ### Trees -/

/-- The value of the cell at an index as an integer, and 0 if there is none. -/
def Table.integerAt (t : Table) (id : Nat) : ℤ :=
  (t.get? id).elim 0 fun c ↦ c.value.toInt

namespace Tree

open Run

/-- A tree of cells, sums, differences and products. A right operand may be missing. -/
inductive IsPolynomial {α : Type} : Tree α → Prop
  | cell (id : α) : IsPolynomial (cell id)
  | binary {op : Operator} {span : Span} {lhs rhs : Tree α} (hop : op.isRing = true)
      (hlhs : IsPolynomial lhs) (hrhs : IsPolynomial rhs) : IsPolynomial (binary op span lhs rhs)
  | unary {op : Operator} {span : Span} {operand : Tree α} (hop : op.isRing = true)
      (h : IsPolynomial operand) : IsPolynomial (unary op span operand)

/-- The value of an expression over the integers, where `env` tells the values of the cells. An
operand that is missing is 0. -/
def exact (env : Nat → ℤ) : Tree Nat → ℤ
  | cell id => env id
  | binary op _ lhs rhs => op.exact (lhs.exact env) (rhs.exact env)
  | unary op _ operand => op.exact (operand.exact env) 0
  | _ => 0

section Operators

variable {bound : Nat} {op : Operator} {span : Span} {lhs rhs operand : Tree Nat}
  {m m₁ m₂ : Machine} {a b : Int64}

/-- An operator with two operands works on their values. -/
theorem run_binary (hop : op.isUnary = false) (hlhs : lhs.run bound m = some (.ok a, m₁))
    (hrhs : rhs.run bound m₁ = some (.ok b, m₂)) :
    (binary op span lhs rhs).run bound m = operate op span a b m₂ := by
  rw [run] at hlhs hrhs
  rw [run, eval, bind_apply, hlhs]
  dsimp only
  rw [rightOperand, hop, bind_apply]
  simp only [Bool.false_eq_true, if_false, hrhs]

/-- A unary operator does not look at its right operand. -/
theorem run_binary_of_isUnary (hop : op.isUnary = true)
    (hlhs : lhs.run bound m = some (.ok a, m₁)) :
    (binary op span lhs rhs).run bound m = operate op span a 0 m₁ := by
  rw [run] at hlhs
  rw [run, eval, bind_apply, hlhs]
  dsimp only
  rw [rightOperand, hop]
  rfl

theorem run_unary (h : operand.run bound m = some (.ok a, m₁)) :
    (unary op span operand).run bound m = operate op span a 0 m₁ := by
  rw [run] at h
  rw [run, eval, bind_apply, h]

end Operators

/-- A tree of sums, differences and products is exact modulo 2^64. -/
theorem IsPolynomial.exists_run {t : Tree Nat} (ht : t.IsPolynomial) {m : Machine}
    (hcells : ∀ id ∈ t.leaves, id < m.table.size) :
    ∃ r : Int64, (∀ bound, t.run bound m = some (.ok r, m)) ∧
      r.toInt ≡ t.exact m.table.integerAt [ZMOD 2 ^ 64] := by
  induction ht with
  | cell id =>
    obtain ⟨c, hc⟩ := m.table.exists_get? (hcells id (List.mem_singleton_self id))
    refine ⟨c.value, fun bound ↦ ?_, ?_⟩
    · rw [run, eval, value, bind_apply, cell_apply, hc]
      rfl
    · rw [exact, Table.integerAt, hc]
      rfl
  | @binary op span lhs rhs hop _ _ ihl ihr =>
    obtain ⟨hleft, hright⟩ := List.forall_mem_append.1 hcells
    obtain ⟨a, ha, hlhs⟩ := ihl hleft
    obtain ⟨b, hb, hrhs⟩ := ihr hright
    obtain ⟨r, hr⟩ := Operator.exists_value?_of_isRing hop a b
    refine ⟨r, fun bound ↦ ?_,
      (Operator.value?_modEq hr).trans (Operator.exact_modEq hop hlhs hrhs)⟩
    rw [run_binary (Operator.isUnary_of_isRing hop) (ha bound) (hb bound)]
    exact Operator.operate_of_value? hr span m
  | @unary op span operand hop _ ih =>
    obtain ⟨a, ha, hoperand⟩ := ih hcells
    obtain ⟨r, hr⟩ := Operator.exists_value?_of_isRing hop a 0
    refine ⟨r, fun bound ↦ ?_,
      (Operator.value?_modEq hr).trans (Operator.exact_modEq hop hoperand (Int.ModEq.refl 0))⟩
    rw [run_unary (ha bound)]
    exact Operator.operate_of_value? hr span m

/-- Arithmetic is exact modulo 2^64. A tree of sums, differences and products whose cells are in the
table has the one value of 64 bits that is congruent to its value over the integers, and it changes
nothing. Every operator, whatever its operands do, gives on their values what it gives over the
integers, reduced in the same way. Nothing fails but a division by zero. -/
theorem arithmetic_exact :
    (∀ (t : Tree Nat) (m : Machine), t.IsPolynomial → (∀ id ∈ t.leaves, id < m.table.size) →
      ∃ r, (∀ bound, t.run bound m = some (.ok r, m)) ∧
        WrapsTo (t.exact m.table.integerAt) r) ∧
    (∀ (bound : Nat) (op : Operator) (span : Span) (lhs rhs : Tree Nat) (m m₁ m₂ : Machine)
      (a b : Int64), op.isUnary = false → lhs.run bound m = some (.ok a, m₁) →
      rhs.run bound m₁ = some (.ok b, m₂) →
      ∃ result, (binary op span lhs rhs).run bound m = some (result, m₂) ∧
        op.Gives span a b result) ∧
    ∀ (bound : Nat) (op : Operator) (span : Span) (operand : Tree Nat) (m m₁ : Machine)
      (a : Int64), operand.run bound m = some (.ok a, m₁) →
      ∃ result, op.Gives span a 0 result ∧
        (unary op span operand).run bound m = some (result, m₁) ∧
        ∀ rhs, op.isUnary = true →
          (binary op span operand rhs).run bound m = some (result, m₁) := by
  refine ⟨fun t m ht hcells ↦ ?_, ?_, ?_⟩
  · obtain ⟨r, hrun, hmod⟩ := ht.exists_run hcells
    exact ⟨r, hrun, wrapsTo_of_modEq hmod⟩
  · intro bound op span lhs rhs m m₁ m₂ a b hop hlhs hrhs
    obtain ⟨result, hgives, hoperate⟩ := op.exists_gives span a b
    exact ⟨result, (run_binary hop hlhs hrhs).trans (hoperate m₂), hgives⟩
  · intro bound op span operand m m₁ a h
    obtain ⟨result, hgives, hoperate⟩ := op.exists_gives span a 0
    exact ⟨result, hgives, (run_unary h).trans (hoperate m₁),
      fun rhs hop ↦ (run_binary_of_isUnary hop h).trans (hoperate m₁)⟩

/-- With the smallest integer for x, -x * x + 1 wraps on the way, and so does x / -1. -/
theorem arithmetic_exact_smallest :
    let span : Span := ⟨{}, {}, Nat.le_refl _⟩
    let m : Machine := { table := { cells := #[(Symbol.literal "0" 0).cell,
      (Symbol.var "x").cell.store Int64.minValue, (Symbol.literal "1" 1).cell] } }
    let negative (t : Tree Nat) : Tree Nat := .binary .subtract span (.cell 0) t
    let t : Tree Nat := .binary .add span (.binary .multiply span (negative (.cell 1)) (.cell 1))
      (.cell 2)
    t.IsPolynomial ∧ t.exact m.table.integerAt = 1 - 2 ^ 126 ∧
      t.run 0 m = some (.ok 1, m) ∧ WrapsTo (1 - 2 ^ 126) 1 ∧
      ∃ r, (binary .divide span (.cell 1) (negative (.cell 2))).run 0 m = some (.ok r, m) ∧
        r.toInt = -2 ^ 63 := by
  intro span m negative t
  have ht : t.IsPolynomial :=
    .binary rfl (.binary rfl (.binary rfl (.cell 0) (.cell 1)) (.cell 1)) (.cell 2)
  have hexact : t.exact m.table.integerAt = 1 - 2 ^ 126 := by decide +kernel
  obtain ⟨r, hrun, hwraps⟩ := arithmetic_exact.1 t m ht (by decide +kernel)
  have hone : t.run 0 m = some (.ok 1, m) := by decide +kernel
  obtain rfl : r = 1 := by
    have heq := (hrun 0).symm.trans hone
    simpa using heq
  obtain ⟨result, hresult, hgives⟩ := arithmetic_exact.2.1 0 .divide span (.cell 1)
    (negative (.cell 2)) m m m Int64.minValue (-1) rfl (by decide +kernel) (by decide +kernel)
  refine ⟨ht, hexact, hone, hexact ▸ hwraps, ?_⟩
  cases result with
  | error fault => exact absurd (hgives.fails_iff.1 ⟨fault, rfl⟩) (by decide)
  | ok r => exact ⟨r, hresult, (hgives.quotient r rfl rfl).2 (by decide)⟩

end Tree

end Pseudocode
