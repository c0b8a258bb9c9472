import Pseudocode.Proofs.Derivation.Expression
import Pseudocode.Proofs.Numerals

/-!
# Values in the place of variables

Wherever a variable is a factor, the tokens of an integer are a factor as well, be it with a minus
sign in front. So with an integer in the place of a variable, the tokens of an expression are those
of an expression again. It has the value that the first one has where the variable has the integer
for its value, and it divides by zero if the first one does.

## Main definitions

* `Token.Kind.withValue`: the kinds of an integer in the place of a variable.
* `Derivation.Substitutes`: tokens with an integer in the place of a variable.

## Main results

* `Derivation.Expression.exists_substituted`: an expression with an integer in the place of a
  variable.
-/

namespace Pseudocode

open Token (Kind)

/-- The kinds of the integer `v` in the place of the variable `x`. -/
def Token.Kind.withValue (x : String) (v : Int64) (kind : Kind) : List Kind :=
  if kind = .var x then (Lexeme.numeral v).map (·.kind) else [kind]

namespace Derivation

open Reference

variable {x : String} {v : Int64}

/-! ### Tokens -/

/-- The tokens `ts` are of the same kinds as `us`, with the integer `v` in the place of the variable
`x`, and none of them runs backwards. -/
structure Substitutes (x : String) (v : Int64) (ts us : List Token) : Prop where
  /-- The kinds are the same but for the variable. -/
  kinds : ts.map (·.kind) = us.flatMap fun u ↦ u.kind.withValue x v
  /-- No token runs backwards. -/
  ordered : ∀ t ∈ ts, t.Ordered

namespace Substitutes

variable {ts us ws : List Token}

theorem nil (h : Substitutes x v ts []) : ts = [] :=
  List.map_eq_nil_iff.1 h.kinds

theorem append (h : Substitutes x v ts (us ++ ws)) :
    ∃ ts₁ ts₂, ts = ts₁ ++ ts₂ ∧ Substitutes x v ts₁ us ∧ Substitutes x v ts₂ ws := by
  obtain ⟨hkinds, hordered⟩ := h
  rw [List.flatMap_append, List.map_eq_append_iff] at hkinds
  obtain ⟨ts₁, ts₂, rfl, h₁, h₂⟩ := hkinds
  exact ⟨ts₁, ts₂, rfl, ⟨h₁, fun t ht ↦ hordered t (List.mem_append_left _ ht)⟩,
    ⟨h₂, fun t ht ↦ hordered t (List.mem_append_right _ ht)⟩⟩

/-- A terminal that is not the variable stays what it is. -/
theorem keep {α : Type} {read : Kind → Option α} {y : Terminal read}
    (hne : y.token.kind ≠ .var x) (h : Substitutes x v ts (y.token :: us)) :
    ∃ (y' : Terminal read) (ts' : List Token),
      ts = y'.token :: ts' ∧ y'.value = y.value ∧ Substitutes x v ts' us := by
  obtain ⟨hkinds, hordered⟩ := h
  rw [List.flatMap_cons, Kind.withValue, if_neg hne, List.map_eq_append_iff] at hkinds
  obtain ⟨ts₁, ts₂, rfl, h₁, h₂⟩ := hkinds
  obtain ⟨t, rfl, hkind⟩ := List.map_eq_singleton_iff.1 h₁
  obtain ⟨ht, hordered⟩ := List.forall_mem_cons.1 hordered
  exact ⟨⟨t, y.value, by rw [hkind, y.read_kind], ht⟩, ts₂, rfl, rfl, h₂, hordered⟩

/-- A terminal of a class without variables stays what it is. -/
theorem terminal {α : Type} {read : Kind → Option α} {y : Terminal read}
    (hread : read (.var x) = none) (h : Substitutes x v ts (y.token :: us)) :
    ∃ (y' : Terminal read) (ts' : List Token),
      ts = y'.token :: ts' ∧ y'.value = y.value ∧ Substitutes x v ts' us := by
  refine h.keep fun hkind ↦ ?_
  have hvalue := y.read_kind
  rw [hkind, hread] at hvalue
  cases hvalue

end Substitutes

/-! ### Values -/

/-- Computations that go on alike from the same value have the same value, or none. -/
theorem toOption_congr {a b : Except Span Int64} {f g : Int64 → Except Span Int64}
    (h : a.toOption = b.toOption) (hfg : ∀ w, (f w).toOption = (g w).toOption) :
    (match a with
      | .ok w => f w
      | .error span => .error span).toOption =
    (match b with
      | .ok w => g w
      | .error span => .error span).toOption := by
  cases a with
  | error span => cases b with
    | error span' => rfl
    | ok w' => cases h
  | ok w => cases b with
    | error span' => cases h
    | ok w' =>
      obtain rfl : w = w' := Option.some.inj h
      exact hfg w

/-- The variable `x` has the value `v` in `env`, and all others have the same values in `env'`. -/
structure Pins (x : String) (v : Int64) (env env' : Env) : Prop where
  /-- The variable has this value. -/
  value_eq : env x = v
  /-- The others keep their values. -/
  others_eq : ∀ y, y ≠ x → env' y = env y

variable {env env' : Env}

/-- Another variable keeps its value, and in the place of the variable itself stands its value. -/
theorem Variable.exists_substituted (hx : Pins x v env env') (y : Variable) {ts : List Token}
    (h : Substitutes x v ts [y.token]) :
    ∃ d : Factor, d.tokens = ts ∧ d.denote env' = .ok (env y.value) := by
  by_cases hy : y.value = x
  · have hkind : y.token.kind = .var x := hy ▸ y.kind_eq
    have hkinds := h.kinds
    rw [List.flatMap_singleton, Kind.withValue, if_pos hkind] at hkinds
    obtain ⟨d, htokens, hdenote⟩ := Factor.exists_numeral hkinds h.ordered
    exact ⟨d, htokens, by rw [hdenote, hy, hx.value_eq]⟩
  · have hne : y.token.kind ≠ .var x := fun hkind ↦
      hy (Kind.var.inj (y.kind_eq.symm.trans hkind))
    obtain ⟨y', ts', rfl, hvalue, h'⟩ := h.keep hne
    refine ⟨.var y', by rw [h'.nil]; rfl, ?_⟩
    rw [Factor.denote, hvalue, hx.others_eq _ hy]

mutual

theorem Factor.exists_substituted (hx : Pins x v env env') : ∀ (d : Factor) (ts : List Token),
    Substitutes x v ts d.tokens →
    ∃ d' : Factor, d'.tokens = ts ∧ (d'.denote env').toOption = (d.denote env).toOption
  | .var y, ts => fun h ↦ by
    obtain ⟨d', htokens, hdenote⟩ := Variable.exists_substituted hx y h
    exact ⟨d', htokens, by rw [hdenote]; rfl⟩
  | .number n, ts => fun h ↦ by
    obtain ⟨n', ts', rfl, hvalue, h'⟩ := Substitutes.terminal rfl h
    refine ⟨.number n', by rw [h'.nil]; rfl, ?_⟩
    rw [Factor.denote, Factor.denote, hvalue]
  | .negative sign operand, ts => fun h ↦ by
    obtain ⟨sign', ts', rfl, -, h'⟩ := Substitutes.terminal rfl h
    obtain ⟨operand', rfl, hoperand⟩ := operand.exists_substituted hx ts' h'
    exact ⟨.negative sign' operand', rfl, toOption_congr hoperand fun _ ↦ rfl⟩
  | .negated word operand, ts => fun h ↦ by
    obtain ⟨word', ts', rfl, -, h'⟩ := Substitutes.terminal rfl h
    obtain ⟨operand', rfl, hoperand⟩ := operand.exists_substituted hx ts' h'
    exact ⟨.negated word' operand', rfl, toOption_congr hoperand fun _ ↦ rfl⟩
  | .group opening inner closing, ts => fun h ↦ by
    obtain ⟨opening', ts', rfl, -, h'⟩ := Substitutes.terminal rfl h
    obtain ⟨ts₁, ts₂, rfl, h₁, h₂⟩ := h'.append
    obtain ⟨inner', rfl, hinner⟩ := inner.exists_substituted hx ts₁ h₁
    obtain ⟨closing', ts', rfl, -, h'⟩ := Substitutes.terminal rfl h₂
    exact ⟨.group opening' inner' closing', by rw [h'.nil]; rfl, hinner⟩
termination_by structural d => d

theorem Expression.exists_substituted (hx : Pins x v env env') :
    ∀ (d : Expression) (ts : List Token), Substitutes x v ts d.tokens →
    ∃ d' : Expression, d'.tokens = ts ∧ (d'.denote env').toOption = (d.denote env).toOption
  | .chain first links, ts => fun h ↦ by
    obtain ⟨ts₁, ts₂, rfl, h₁, h₂⟩ := Substitutes.append h
    obtain ⟨first', rfl, hfirst⟩ := first.exists_substituted hx ts₁ h₁
    obtain ⟨links', rfl, hlinks⟩ := Link.exists_substitutedAll hx links ts₂ h₂
    exact ⟨.chain first' links', rfl, toOption_congr hfirst hlinks⟩
termination_by structural d => d

theorem Link.exists_substituted (hx : Pins x v env env') : ∀ (d : Link) (ts : List Token),
    Substitutes x v ts d.tokens → ∃ d' : Link, d'.tokens = ts ∧
      ∀ lhs, (d'.denote env' lhs).toOption = (d.denote env lhs).toOption
  | .mk op operand, ts => fun h ↦ by
    obtain ⟨op', ts', rfl, hop, h'⟩ := Substitutes.terminal rfl h
    obtain ⟨operand', rfl, hoperand⟩ := operand.exists_substituted hx ts' h'
    refine ⟨.mk op' operand', rfl, fun lhs ↦ ?_⟩
    rw [Link.denote, Link.denote, hop]
    refine toOption_congr hoperand fun w ↦ ?_
    cases op.value.value? lhs w <;> rfl
termination_by structural d => d

theorem Link.exists_substitutedAll (hx : Pins x v env env') : ∀ (ds : List Link) (ts : List Token),
    Substitutes x v ts (Link.tokensAll ds) → ∃ ds' : List Link, Link.tokensAll ds' = ts ∧
      ∀ lhs, (Link.denoteAll env' lhs ds').toOption = (Link.denoteAll env lhs ds).toOption
  | [], ts => fun h ↦ ⟨[], h.nil.symm, fun _ ↦ rfl⟩
  | d :: ds, ts => fun h ↦ by
    obtain ⟨ts₁, ts₂, rfl, h₁, h₂⟩ := Substitutes.append h
    obtain ⟨d', rfl, hd⟩ := d.exists_substituted hx ts₁ h₁
    obtain ⟨ds', rfl, hds⟩ := Link.exists_substitutedAll hx ds ts₂ h₂
    exact ⟨d' :: ds', rfl, fun lhs ↦ toOption_congr (hd lhs) hds⟩
termination_by structural ds => ds

end

end Derivation

end Pseudocode
