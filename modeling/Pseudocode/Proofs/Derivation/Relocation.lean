import Pseudocode.Proofs.Derivation.Program

/-!
# Derivations do not depend on places

Whether tokens are derived from the grammar depends on their kinds alone. Tokens of the same kinds
at other places are derived in the same way, as long as none of them runs backwards.

## Main definitions

* `Derivation.Relocates`: the same kinds of tokens at other places.
* `Derivation.Viable`: kinds of tokens that begin a sentence.

## Main results

* `Derivation.Sentence.relocate`: a sentence stays one at other places.
* `Derivation.Blame.not_viable`: a token that is to blame is wrong because of its kind.
-/

namespace Pseudocode.Derivation

open Token (Kind)

/-- The tokens `ts` are of the same kinds as `us`, and none of them runs backwards. -/
structure Relocates (ts us : List Token) : Prop where
  /-- The kinds are the same. -/
  kinds : ts.map (·.kind) = us.map (·.kind)
  /-- No token runs backwards. -/
  ordered : ∀ t ∈ ts, t.Ordered

namespace Relocates

variable {ts us vs : List Token}

theorem nil (h : Relocates ts []) : ts = [] :=
  List.map_eq_nil_iff.1 h.kinds

theorem append (h : Relocates ts (us ++ vs)) :
    ∃ ts₁ ts₂, ts = ts₁ ++ ts₂ ∧ Relocates ts₁ us ∧ Relocates ts₂ vs := by
  obtain ⟨hkinds, hordered⟩ := h
  rw [List.map_append, List.map_eq_append_iff] at hkinds
  obtain ⟨ts₁, ts₂, rfl, h₁, h₂⟩ := hkinds
  exact ⟨ts₁, ts₂, rfl, ⟨h₁, fun t ht ↦ hordered t (List.mem_append_left _ ht)⟩,
    ⟨h₂, fun t ht ↦ hordered t (List.mem_append_right _ ht)⟩⟩

/-- A terminal stays one of its class. -/
theorem terminal {α : Type} {read : Kind → Option α} {x : Terminal read}
    (h : Relocates ts (x.token :: us)) :
    ∃ (x' : Terminal read) (ts' : List Token), ts = x'.token :: ts' ∧ Relocates ts' us := by
  obtain ⟨hkinds, hordered⟩ := h
  rw [List.map_cons, List.map_eq_cons_iff] at hkinds
  obtain ⟨t, ts', rfl, hkind, hrest⟩ := hkinds
  exact ⟨⟨t, x.value, by rw [hkind, x.read_kind], hordered t List.mem_cons_self⟩, ts', rfl, hrest,
    fun u hu ↦ hordered u (List.mem_cons_of_mem _ hu)⟩

theorem single {α : Type} {read : Kind → Option α} {x : Terminal read}
    (h : Relocates ts [x.token]) : ∃ x' : Terminal read, [x'.token] = ts := by
  obtain ⟨x', ts', rfl, hrest⟩ := h.terminal
  exact ⟨x', by rw [hrest.nil]⟩

end Relocates

/-! ### Expressions and the parts of instructions -/

mutual

theorem Factor.relocate : ∀ (d : Factor) (ts : List Token), Relocates ts d.tokens →
    ∃ d' : Factor, d'.tokens = ts
  | .var x, ts => fun h ↦ by
    obtain ⟨x', hx⟩ := h.single
    exact ⟨.var x', hx⟩
  | .number x, ts => fun h ↦ by
    obtain ⟨x', hx⟩ := h.single
    exact ⟨.number x', hx⟩
  | .negative sign operand, ts => fun h ↦ by
    obtain ⟨sign', ts', rfl, h'⟩ := h.terminal
    obtain ⟨operand', rfl⟩ := operand.relocate ts' h'
    exact ⟨.negative sign' operand', rfl⟩
  | .negated word operand, ts => fun h ↦ by
    obtain ⟨word', ts', rfl, h'⟩ := h.terminal
    obtain ⟨operand', rfl⟩ := operand.relocate ts' h'
    exact ⟨.negated word' operand', rfl⟩
  | .group opening inner closing, ts => fun h ↦ by
    obtain ⟨opening', ts', rfl, h'⟩ := h.terminal
    obtain ⟨ts₁, ts₂, rfl, h₁, h₂⟩ := h'.append
    obtain ⟨inner', rfl⟩ := inner.relocate ts₁ h₁
    obtain ⟨closing', rfl⟩ := h₂.single
    exact ⟨.group opening' inner' closing', rfl⟩
termination_by structural d => d

theorem Expression.relocate : ∀ (d : Expression) (ts : List Token), Relocates ts d.tokens →
    ∃ d' : Expression, d'.tokens = ts
  | .chain first links, ts => fun h ↦ by
    obtain ⟨ts₁, ts₂, rfl, h₁, h₂⟩ := Relocates.append h
    obtain ⟨first', rfl⟩ := first.relocate ts₁ h₁
    obtain ⟨links', rfl⟩ := Link.relocateAll links ts₂ h₂
    exact ⟨.chain first' links', rfl⟩
termination_by structural d => d

theorem Link.relocate : ∀ (d : Link) (ts : List Token), Relocates ts d.tokens →
    ∃ d' : Link, d'.tokens = ts
  | .mk op operand, ts => fun h ↦ by
    obtain ⟨op', ts', rfl, h'⟩ := h.terminal
    obtain ⟨operand', rfl⟩ := operand.relocate ts' h'
    exact ⟨.mk op' operand', rfl⟩
termination_by structural d => d

theorem Link.relocateAll : ∀ (ds : List Link) (ts : List Token),
    Relocates ts (Link.tokensAll ds) → ∃ ds' : List Link, Link.tokensAll ds' = ts
  | [], ts => fun h ↦ ⟨[], h.nil.symm⟩
  | d :: ds, ts => fun h ↦ by
    obtain ⟨ts₁, ts₂, rfl, h₁, h₂⟩ := Relocates.append h
    obtain ⟨d', rfl⟩ := d.relocate ts₁ h₁
    obtain ⟨ds', rfl⟩ := Link.relocateAll ds ts₂ h₂
    exact ⟨d' :: ds', rfl⟩
termination_by structural ds => ds

end

section Shapes

variable {D : Type} {inner : D → List Token}

theorem Enclosed.relocate (hinner : ∀ d ts, Relocates ts (inner d) → ∃ d', inner d' = ts)
    (e : Enclosed D) (ts : List Token) (h : Relocates ts (e.tokens inner)) :
    ∃ e' : Enclosed D, e'.tokens inner = ts := by
  obtain ⟨opening', ts', rfl, h'⟩ := h.terminal
  obtain ⟨ts₁, ts₂, rfl, h₁, h₂⟩ := h'.append
  obtain ⟨inner', rfl⟩ := hinner e.inner ts₁ h₁
  obtain ⟨closing', rfl⟩ := h₂.single
  exact ⟨⟨opening', inner', closing'⟩, rfl⟩

theorem Listed.relocateOthers (hinner : ∀ d ts, Relocates ts (inner d) → ∃ d', inner d' = ts)
    (others : List (Mark .comma × D)) (ts : List Token)
    (h : Relocates ts (others.flatMap fun other ↦ other.1.token :: inner other.2)) :
    ∃ others' : List (Mark .comma × D),
      (others'.flatMap fun other ↦ other.1.token :: inner other.2) = ts := by
  induction others generalizing ts with
  | nil => exact ⟨[], h.nil.symm⟩
  | cons other others ih =>
    obtain ⟨ts₁, ts₂, rfl, h₁, h₂⟩ := Relocates.append h
    obtain ⟨comma', ts', rfl, h'⟩ := h₁.terminal
    obtain ⟨d', rfl⟩ := hinner other.2 ts' h'
    obtain ⟨others', rfl⟩ := ih ts₂ h₂
    exact ⟨(comma', d') :: others', rfl⟩

theorem Listed.relocate (hinner : ∀ d ts, Relocates ts (inner d) → ∃ d', inner d' = ts)
    (l : Listed D) (ts : List Token) (h : Relocates ts (l.tokens inner)) :
    ∃ l' : Listed D, l'.tokens inner = ts := by
  obtain ⟨ts₁, ts₂, rfl, h₁, h₂⟩ := Relocates.append h
  obtain ⟨first', rfl⟩ := hinner l.first ts₁ h₁
  obtain ⟨others', rfl⟩ := Listed.relocateOthers hinner l.others ts₂ h₂
  exact ⟨⟨first', others'⟩, rfl⟩

end Shapes

theorem Condition.relocate (d : Condition) (ts : List Token) (h : Relocates ts d.tokens) :
    ∃ d' : Condition, d'.tokens = ts :=
  Enclosed.relocate Expression.relocate d ts h

theorem Assignment.relocate (d : Assignment) (ts : List Token) (h : Relocates ts d.tokens) :
    ∃ d' : Assignment, d'.tokens = ts := by
  obtain ⟨target', ts', rfl, h'⟩ := h.terminal
  obtain ⟨mark', ts'', rfl, h''⟩ := h'.terminal
  obtain ⟨value', rfl⟩ := d.value.relocate ts'' h''
  exact ⟨⟨target', mark', value'⟩, rfl⟩

theorem Assignment.relocate? (d : Option Assignment) (ts : List Token)
    (h : Relocates ts (Assignment.tokens? d)) :
    ∃ d' : Option Assignment, Assignment.tokens? d' = ts := by
  cases d with
  | none => exact ⟨none, h.nil.symm⟩
  | some d =>
    obtain ⟨d', hd⟩ := d.relocate ts h
    exact ⟨some d', hd⟩

theorem Item.relocate (d : Item) (ts : List Token) (h : Relocates ts d.tokens) :
    ∃ d' : Item, d'.tokens = ts := by
  cases d with
  | text contents =>
    obtain ⟨contents', hcontents⟩ := h.single
    exact ⟨.text contents', hcontents⟩
  | value expression =>
    obtain ⟨expression', hexpression⟩ := expression.relocate ts h
    exact ⟨.value expression', hexpression⟩

/-! ### Instructions -/

mutual

theorem Instruction.relocate : ∀ (d : Instruction) (ts : List Token), Relocates ts d.tokens →
    ∃ d' : Instruction, d'.tokens = ts
  | .assignment a semicolon, ts => fun h ↦ by
    obtain ⟨ts₁, ts₂, rfl, h₁, h₂⟩ := Relocates.append h
    obtain ⟨a', rfl⟩ := a.relocate ts₁ h₁
    obtain ⟨semicolon', rfl⟩ := h₂.single
    exact ⟨.assignment a' semicolon', rfl⟩
  | .ifThen si test body finsi, ts => fun h ↦ by
    obtain ⟨si', ts', rfl, h'⟩ := h.terminal
    obtain ⟨ts₁, _, rfl, h₁, h''⟩ := h'.append
    obtain ⟨ts₂, ts₃, rfl, h₂, h₃⟩ := h''.append
    obtain ⟨test', rfl⟩ := Condition.relocate test ts₁ h₁
    obtain ⟨body', rfl⟩ := body.relocate ts₂ h₂
    obtain ⟨finsi', rfl⟩ := h₃.single
    exact ⟨.ifThen si' test' body' finsi', rfl⟩
  | .choice si test body tail, ts => fun h ↦ by
    obtain ⟨si', ts', rfl, h'⟩ := h.terminal
    obtain ⟨ts₁, _, rfl, h₁, h''⟩ := h'.append
    obtain ⟨ts₂, ts₃, rfl, h₂, h₃⟩ := h''.append
    obtain ⟨test', rfl⟩ := Condition.relocate test ts₁ h₁
    obtain ⟨body', rfl⟩ := body.relocate ts₂ h₂
    obtain ⟨tail', rfl⟩ := tail.relocate ts₃ h₃
    exact ⟨.choice si' test' body' tail', rfl⟩
  | .repeatUntil repeter body jusqua test, ts => fun h ↦ by
    obtain ⟨repeter', ts', rfl, h'⟩ := h.terminal
    obtain ⟨ts₁, _, rfl, h₁, h''⟩ := h'.append
    obtain ⟨jusqua', ts₂, rfl, h₂⟩ := h''.terminal
    obtain ⟨body', rfl⟩ := body.relocate ts₁ h₁
    obtain ⟨test', rfl⟩ := Condition.relocate test ts₂ h₂
    exact ⟨.repeatUntil repeter' body' jusqua' test', rfl⟩
  | .whileDo tantque test body fintantque, ts => fun h ↦ by
    obtain ⟨tantque', ts', rfl, h'⟩ := h.terminal
    obtain ⟨ts₁, _, rfl, h₁, h''⟩ := h'.append
    obtain ⟨ts₂, ts₃, rfl, h₂, h₃⟩ := h''.append
    obtain ⟨test', rfl⟩ := Condition.relocate test ts₁ h₁
    obtain ⟨body', rfl⟩ := body.relocate ts₂ h₂
    obtain ⟨fintantque', rfl⟩ := h₃.single
    exact ⟨.whileDo tantque' test' body' fintantque', rfl⟩
  | .forLoop pour opening init semicolon test semicolon' step closing body finpour, ts => fun h ↦ by
    obtain ⟨pour', _, rfl, ha⟩ := h.terminal
    obtain ⟨opening', _, rfl, hb⟩ := ha.terminal
    obtain ⟨ts₁, _, rfl, h₁, hc⟩ := hb.append
    obtain ⟨mark₁, _, rfl, hd⟩ := hc.terminal
    obtain ⟨ts₂, _, rfl, h₂, he⟩ := hd.append
    obtain ⟨mark₂, _, rfl, hf⟩ := he.terminal
    obtain ⟨ts₃, _, rfl, h₃, hg⟩ := hf.append
    obtain ⟨closing', _, rfl, hh⟩ := hg.terminal
    obtain ⟨ts₄, ts₅, rfl, h₄, h₅⟩ := hh.append
    obtain ⟨init', rfl⟩ := Assignment.relocate? init ts₁ h₁
    obtain ⟨test', rfl⟩ := test.relocate ts₂ h₂
    obtain ⟨step', rfl⟩ := Assignment.relocate? step ts₃ h₃
    obtain ⟨body', rfl⟩ := body.relocate ts₄ h₄
    obtain ⟨finpour', rfl⟩ := h₅.single
    exact ⟨.forLoop pour' opening' init' mark₁ test' mark₂ step' closing' body' finpour', rfl⟩
  | .write ecrire items, ts => fun h ↦ by
    obtain ⟨ecrire', ts', rfl, h'⟩ := h.terminal
    obtain ⟨items', rfl⟩ := Enclosed.relocate (Listed.relocate Item.relocate) items ts' h'
    exact ⟨.write ecrire' items', rfl⟩
  | .read lire cells, ts => fun h ↦ by
    obtain ⟨lire', ts', rfl, h'⟩ := h.terminal
    obtain ⟨cells', rfl⟩ :=
      Enclosed.relocate (Listed.relocate fun _ _ h ↦ h.single) cells ts' h'
    exact ⟨.read lire' cells', rfl⟩
termination_by structural d => d

theorem Sequence.relocate : ∀ (d : Sequence) (ts : List Token), Relocates ts d.tokens →
    ∃ d' : Sequence, d'.tokens = ts
  | .mk first others, ts => fun h ↦ by
    obtain ⟨ts₁, ts₂, rfl, h₁, h₂⟩ := Relocates.append h
    obtain ⟨first', rfl⟩ := first.relocate ts₁ h₁
    obtain ⟨others', rfl⟩ := Instruction.relocateAll others ts₂ h₂
    exact ⟨.mk first' others', rfl⟩
termination_by structural d => d

theorem Instruction.relocateAll : ∀ (ds : List Instruction) (ts : List Token),
    Relocates ts (Instruction.tokensAll ds) →
      ∃ ds' : List Instruction, Instruction.tokensAll ds' = ts
  | [], ts => fun h ↦ ⟨[], h.nil.symm⟩
  | d :: ds, ts => fun h ↦ by
    obtain ⟨ts₁, ts₂, rfl, h₁, h₂⟩ := Relocates.append h
    obtain ⟨d', rfl⟩ := d.relocate ts₁ h₁
    obtain ⟨ds', rfl⟩ := Instruction.relocateAll ds ts₂ h₂
    exact ⟨d' :: ds', rfl⟩
termination_by structural ds => ds

theorem Guarded.relocate : ∀ (d : Guarded) (ts : List Token), Relocates ts d.tokens →
    ∃ d' : Guarded, d'.tokens = ts
  | .mk sinonsi test body, ts => fun h ↦ by
    obtain ⟨sinonsi', ts', rfl, h'⟩ := h.terminal
    obtain ⟨ts₁, ts₂, rfl, h₁, h₂⟩ := h'.append
    obtain ⟨test', rfl⟩ := Condition.relocate test ts₁ h₁
    obtain ⟨body', rfl⟩ := body.relocate ts₂ h₂
    exact ⟨.mk sinonsi' test' body', rfl⟩
termination_by structural d => d

theorem Guarded.relocateAll : ∀ (ds : List Guarded) (ts : List Token),
    Relocates ts (Guarded.tokensAll ds) → ∃ ds' : List Guarded, Guarded.tokensAll ds' = ts
  | [], ts => fun h ↦ ⟨[], h.nil.symm⟩
  | d :: ds, ts => fun h ↦ by
    obtain ⟨ts₁, ts₂, rfl, h₁, h₂⟩ := Relocates.append h
    obtain ⟨d', rfl⟩ := d.relocate ts₁ h₁
    obtain ⟨ds', rfl⟩ := Guarded.relocateAll ds ts₂ h₂
    exact ⟨d' :: ds', rfl⟩
termination_by structural ds => ds

theorem Otherwise.relocate : ∀ (d : Otherwise) (ts : List Token), Relocates ts d.tokens →
    ∃ d' : Otherwise, d'.tokens = ts
  | .mk sinon body, ts => fun h ↦ by
    obtain ⟨sinon', ts', rfl, h'⟩ := h.terminal
    obtain ⟨body', rfl⟩ := body.relocate ts' h'
    exact ⟨.mk sinon' body', rfl⟩
termination_by structural d => d

theorem Otherwise.relocate? : ∀ (d : Option Otherwise) (ts : List Token),
    Relocates ts (Otherwise.tokens? d) → ∃ d' : Option Otherwise, Otherwise.tokens? d' = ts
  | none, ts => fun h ↦ ⟨none, h.nil.symm⟩
  | some d, ts => fun h ↦ by
    obtain ⟨d', hd⟩ := d.relocate ts h
    exact ⟨some d', hd⟩
termination_by structural d => d

theorem Tail.relocate : ∀ (d : Tail) (ts : List Token), Relocates ts d.tokens →
    ∃ d' : Tail, d'.tokens = ts
  | .guarded first others last finsi, ts => fun h ↦ by
    obtain ⟨ts₁, _, rfl, h₁, h'⟩ := Relocates.append h
    obtain ⟨ts₂, _, rfl, h₂, h''⟩ := h'.append
    obtain ⟨ts₃, ts₄, rfl, h₃, h₄⟩ := h''.append
    obtain ⟨first', rfl⟩ := first.relocate ts₁ h₁
    obtain ⟨others', rfl⟩ := Guarded.relocateAll others ts₂ h₂
    obtain ⟨last', rfl⟩ := Otherwise.relocate? last ts₃ h₃
    obtain ⟨finsi', rfl⟩ := h₄.single
    exact ⟨.guarded first' others' last' finsi', rfl⟩
  | .otherwise last finsi, ts => fun h ↦ by
    obtain ⟨ts₁, ts₂, rfl, h₁, h₂⟩ := Relocates.append h
    obtain ⟨last', rfl⟩ := last.relocate ts₁ h₁
    obtain ⟨finsi', rfl⟩ := h₂.single
    exact ⟨.otherwise last' finsi', rfl⟩
termination_by structural d => d

end

/-! ### Programs -/

theorem Program.relocate (d : Program) (ts : List Token) (h : Relocates ts d.tokens) :
    ∃ d' : Program, d'.tokens = ts := by
  obtain ⟨procedure', _, rfl, ha⟩ := h.terminal
  obtain ⟨principale', _, rfl, hb⟩ := ha.terminal
  obtain ⟨opening', _, rfl, hc⟩ := hb.terminal
  obtain ⟨closing', _, rfl, hd⟩ := hc.terminal
  obtain ⟨ts₁, ts₂, rfl, h₁, h₂⟩ := hd.append
  obtain ⟨body', rfl⟩ := d.body.relocate ts₁ h₁
  obtain ⟨finproc', rfl⟩ := h₂.single
  exact ⟨⟨procedure', principale', opening', closing', body', finproc'⟩, rfl⟩

theorem Sentence.ordered {ts : List Token} (h : Sentence ts) : ∀ t ∈ ts, t.Ordered := by
  obtain ⟨d, last, -, hlast, rfl⟩ := h
  intro t ht
  rcases List.mem_append.1 ht with ht | ht
  · exact Phrase.program_ordered d t ht
  · exact List.mem_singleton.1 ht ▸ hlast

/-- A sentence stays one at other places. -/
theorem Sentence.relocate {ts us : List Token} (hus : Sentence us) (h : Relocates ts us) :
    Sentence ts := by
  obtain ⟨d, last, hlast, -, rfl⟩ := hus
  obtain ⟨ts₁, ts₂, rfl, h₁, h₂⟩ := h.append
  obtain ⟨d', rfl⟩ := d.relocate ts₁ h₁
  obtain ⟨t, rfl, hkind⟩ : ∃ t, ts₂ = [t] ∧ t.kind = last.kind := by
    have hkinds := h₂.kinds
    rw [List.map_singleton, List.map_eq_singleton_iff] at hkinds
    exact hkinds
  exact ⟨d', t, hkind.trans hlast, h₂.ordered t List.mem_cons_self, rfl⟩

/-! ### Kinds of tokens -/

/-- The kinds of tokens begin a sentence. -/
def Viable (kinds : List Kind) : Prop :=
  ∃ ts, Sentence ts ∧ kinds <+: ts.map (·.kind)

theorem viable_of_prefix {w ts : List Token} (hts : Sentence ts) (hw : w <+: ts) :
    Viable (w.map (·.kind)) :=
  ⟨ts, hts, hw.map _⟩

/-- A token that is to blame is wrong because of its kind: a sentence that goes on with such a kind
could be moved to the places of the tokens so far. -/
theorem Blame.not_viable {w : List Token} {t : Token} {wanted : Expectation}
    (h : Blame w t wanted) (hordered : ∀ u ∈ w ++ [t], u.Ordered) :
    ¬ Viable ((w ++ [t]).map (·.kind)) := by
  rintro ⟨us, hus, more, hmore⟩
  obtain ⟨us₁, us₂, rfl, hus₁, -⟩ := List.map_eq_append_iff.1 hmore.symm
  refine h.excluded (w ++ [t] ++ us₂) (hus.relocate ⟨?_, ?_⟩) (List.prefix_append _ _)
  · simp only [List.map_append] at hus₁ ⊢
    rw [hus₁]
  · intro u hu
    rcases List.mem_append.1 hu with hu | hu
    · exact hordered u hu
    · exact hus.ordered u (List.mem_append_right _ hu)

end Pseudocode.Derivation
