import Pseudocode.Proofs.Derivation.Phrase

/-!
# Composition of phrases

Single tokens, one phrase behind the other, repetition and choice: each is read by the rule that is
built in the same way. In every case the only condition is on the seam: a reader of the first part
has to stop where the second part begins.

## Main definitions

* `Rule.take`: takes one token and gives what is read from it.
* `Phrase.terminal`: the phrase of one token.
* `Phrase.Branch`: what a rule does on streams that start with a token of a given kind.

## Main results

* `Phrase.readBy_take`: one token.
* `Phrase.ReadBy.bind`: one phrase behind the other.
* `Phrase.ReadBy.many`: repetition.
* `Phrase.ReadBy.of_branches`: choice by the first token.
-/

namespace Pseudocode

open Token (Kind Category)

namespace Rule

variable {α β : Type}

/-- Takes a token that `read` has an answer for, and fails at any other. -/
def take (read : Kind → Option α) (wanted : Expectation) : Rule (α × Token) := do
  let t ← peek
  match read t.kind with
  | some a =>
    advance
    pure (a, t)
  | none => fail wanted

theorem take_of_some {read : Kind → Option α} {wanted : Expectation} {s : Stream} {a : α}
    (h : read s.peek.kind = some a) :
    take read wanted s = { result := .ok (a, s.peek), rest := s.advance, events := [] } := by
  rw [take, peek_bind, h]
  rfl

theorem take_of_none {read : Kind → Option α} {wanted : Expectation} {s : Stream}
    (h : read s.peek.kind = none) : take read wanted s = fail wanted s := by
  rw [take, peek_bind, h]

theorem take_bind_of_some {read : Kind → Option α} {wanted : Expectation} {s : Stream} {a : α}
    (f : α × Token → Rule β) (h : read s.peek.kind = some a) :
    (take read wanted >>= f) s = f (a, s.peek) s.advance := by
  have htake : take read wanted s = _ := take_of_some h
  rw [bind_of_ok f (congrArg Outcome.result htake), htake]
  rfl

/-- What follows a rule only sees what the rule does. -/
theorem bind_congr {r r' : Rule α} {s : Stream} (f : α → Rule β) (h : r s = r' s) :
    (r >>= f) s = (r' >>= f) s := by
  change Rule.bind r f s = Rule.bind r' f s
  simp only [Rule.bind, h]

instance : LawfulMonad Rule :=
  LawfulMonad.mk' Rule
    (by
      intro α r
      funext s
      change (r >>= fun a ↦ pure a) s = r s
      cases h : (r s).result with
      | ok a =>
        rw [bind_of_ok _ h, pure_apply, List.append_nil]
        dsimp only
        rw [← h]
      | error e => rw [bind_of_error _ h, ← h])
    (by
      intro α β a f
      funext s
      rw [bind_of_ok f (pure_apply a s ▸ rfl : ((pure a : Rule α) s).result = .ok a)]
      simp [pure_apply])
    (by
      intro α β γ r f g
      funext s
      cases h : (r s).result with
      | ok a =>
        rw [bind_of_ok _ h]
        cases h' : (f a (r s).rest).result with
        | ok b =>
          have hfirst : ((r >>= f) s).result = .ok b := by rw [bind_of_ok f h, h']
          rw [bind_of_ok g hfirst, bind_of_ok f h, bind_of_ok g h']
          simp
        | error e =>
          have hfirst : ((r >>= f) s).result = .error e := by rw [bind_of_ok f h, h']
          rw [bind_of_error g hfirst, bind_of_ok f h, bind_of_error g h']
      | error e =>
        have hfirst : ((r >>= f) s).result = .error e := by rw [bind_of_error f h]
        rw [bind_of_error g hfirst, bind_of_error f h, bind_of_error _ h])

/-- One rule and then the other, with both results. -/
def both (r : Rule α) (q : Rule β) : Rule (α × β) := do
  let a ← r
  let b ← q
  pure (a, b)

@[simp]
theorem both_bind {γ : Type} (r : Rule α) (q : Rule β) (f : α × β → Rule γ) :
    r.both q >>= f = r >>= fun a ↦ q >>= fun b ↦ f (a, b) := by
  simp [both]

/-- At a token with its locations in order, a failure tells about that token. -/
theorem fail_apply (wanted : Expectation) {s : Stream} (hs : s.Ordered) :
    ∃ e : SyntaxError, e.At s.peek ∧ e.expectation = wanted ∧
      (fail wanted : Rule α) s = { result := .error (.syntactic e), rest := s, events := [] } := by
  have hspan : s.peek.span? = some ⟨s.peek.start, s.peek.stop, hs.peek⟩ :=
    Span.between?_eq_some_iff.2 ⟨rfl, rfl⟩
  refine ⟨⟨_, wanted, s.peek.kind.text⟩, ⟨hspan, rfl⟩, rfl, ?_⟩
  rw [fail, peek_bind, spanOf, hspan]
  rfl

theorem spanOf_terminal {read : Kind → Option α} (t : Derivation.Terminal read) :
    spanOf t.token = pure t.span := by
  have hspan : t.token.span? = some t.span := Span.between?_eq_some_iff.2 ⟨rfl, rfl⟩
  rw [spanOf, hspan]

end Rule

namespace Phrase

variable {D E : Type} {α β : Type}

open Rule

/-! ### One token -/

/-- One token that `read` has an answer for. -/
def terminal (read : Kind → Option α) : Phrase (Derivation.Terminal read) where
  tokens t := [t.token]
  ordered t _ hu := List.mem_singleton.1 hu ▸ t.ordered
  stops _ _ := True

theorem readBy_take {read : Kind → Option α} (wanted : Expectation) (hend : read .endOfInput = none)
    [hne : Nonempty (Derivation.Terminal read)]
    (hwanted : ∀ c, wanted = .token c →
      ∃ t : Derivation.Terminal read, t.token.kind.category = c) (n : Nat) :
    (terminal read).ReadBy n (take read wanted) (fun t ↦ (t.value, t.token)) fun _ ↦ [] where
  complete t s hs _ _ := take_of_some t.read_kind
  unique t t' s _ _ _ _ heq := by
    obtain ⟨token, value, hread, hordered⟩ := t
    obtain ⟨token', value', hread', hordered'⟩ := t'
    obtain rfl : token = token' := List.head_eq_of_cons_eq heq
    obtain rfl : value = value' := Option.some.inj (hread.symm.trans hread')
    rfl
  outcome s hs _ := by
    cases hread : read s.peek.kind with
    | some a =>
      have hpeek : s.peek.kind ≠ .endOfInput := by
        intro h
        rw [h, hend] at hread
        cases hread
      exact .inl ⟨⟨s.peek, a, hread, hs.peek⟩, s.advance, Stream.eq_push_peek hpeek, trivial⟩
    | none =>
      obtain ⟨e, hat, hwant, hfail⟩ := fail_apply (α := α × Token) wanted hs
      have hresult : (take read wanted s).FailsAt e s := by
        rw [take_of_none hread, hfail]
        exact ⟨rfl, rfl⟩
      refine .inr ⟨[], s, e, rfl, hresult, hat, ?_, ?_, ?_⟩
      · obtain ⟨t⟩ := hne
        exact ⟨t, List.nil_prefix⟩
      · intro c hc
        obtain ⟨t, ht⟩ := hwanted c (hwant ▸ hc)
        exact ⟨t.token, ht, t, List.prefix_refl _⟩
      · rintro t u - - - hprefix
        have hhead := List.head_eq_of_cons_eq (List.prefix_iff_eq_take.1 hprefix)
        have ht := t.read_kind
        rw [← hhead, hread] at ht
        cases ht
  quiet s hs _ x hx := by
    cases hread : read s.peek.kind with
    | some a =>
      rw [take_of_some hread] at hx
      cases hx
    | none =>
      obtain ⟨e, -, -, hfail⟩ := fail_apply (α := α × Token) wanted hs
      rw [take_of_none hread, hfail] at hx
      cases hx

namespace ReadBy

variable {P : Phrase D} {Q : Phrase E} {r : Rule α} {f : α → Rule β} {value : D → α}
  {trail : D → List Event} {m n : Nat}

/-! ### One phrase behind the other -/

/-- A failure of the second part is to blame on the same token: by the lookahead, whatever starts
with the same tokens starts with the same first part. -/
theorem blame_seq (hr : P.ReadBy n r value trail) (hm : ∀ d, n ≤ m + (P.tokens d).length)
    (hseam : P.Before Q) {d : D} {w : List Token} {rest : Stream} {wanted : Expectation}
    (hd : (P.tokens d).length < n) (hstops : P.stops d (rest.push w).peek.kind)
    (hblame : Q.Blame m w rest.peek wanted) :
    (P.seq Q).Blame n (P.tokens d ++ w) rest.peek wanted where
  viable := by
    obtain ⟨e, he⟩ := hblame.viable
    exact ⟨(d, e), (List.prefix_append_right_inj _).2 he⟩
  viable_wanted c hc := by
    obtain ⟨u, hu, e, he⟩ := hblame.viable_wanted c hc
    refine ⟨u, hu, (d, e), ?_⟩
    rw [List.append_assoc]
    exact (List.prefix_append_right_inj _).2 he
  excluded := by
    rintro ⟨d', e'⟩ s hs hlength hstops' ⟨more, hmore⟩
    simp only [seq, List.length_append] at hlength hmore
    have hs' : (s.push (Q.tokens e')).Ordered := ordered_push hs e'
    have heq : P.tokens d ++ (w ++ [rest.peek] ++ more) =
        P.tokens d' ++ (s.push (Q.tokens e')).all := by
      rw [Stream.all_push]
      simpa using hmore
    have hall := hr.rest_eq hd (by omega) (rest.head?_append_peek w more) hstops hs'
      (hseam.stops hstops') heq
    have hm' := hm d'
    refine hblame.excluded e' s hs (by omega) hstops'.1 ⟨more, ?_⟩
    rw [hall, Stream.all_push]

/-- A failure of the first part is to blame on the same token. -/
theorem blame_first [hne : Nonempty E] (hseam : P.Before Q) {w : List Token} {t : Token}
    {wanted : Expectation} (hblame : P.Blame n w t wanted) : (P.seq Q).Blame n w t wanted where
  viable := by
    obtain ⟨e⟩ := hne
    obtain ⟨d, hd⟩ := hblame.viable
    exact ⟨(d, e), hd.trans (List.prefix_append _ _)⟩
  viable_wanted c hc := by
    obtain ⟨e⟩ := hne
    obtain ⟨u, hu, d, hd⟩ := hblame.viable_wanted c hc
    exact ⟨u, hu, (d, e), hd.trans (List.prefix_append _ _)⟩
  excluded := by
    rintro ⟨d, e⟩ s hs hlength hstops hprefix
    simp only [seq, List.length_append] at hlength hprefix
    refine hblame.excluded d (s.push (Q.tokens e)) (ordered_push hs e) (by omega)
      (hseam.stops hstops) ?_
    rwa [Stream.all_push, ← List.append_assoc]

/-- Two derivations of the first part that are followed by as much leave the same tokens. -/
theorem rest_unique (hr : P.ReadBy n r value trail) {d d' : D} {s s' : Stream} (hs : s.Ordered)
    (hs' : s'.Ordered) (hd : (P.tokens d).length < n) (hd' : (P.tokens d').length < n)
    (hstops : P.stops d s.peek.kind) (hstops' : P.stops d' s'.peek.kind)
    (h : s.push (P.tokens d) = s'.push (P.tokens d')) : s = s' := by
  have h₁ := hr.complete d s hs hd hstops
  rw [h, hr.complete d' s' hs' hd' hstops'] at h₁
  exact (congrArg Outcome.rest h₁).symm

/-- One phrase behind the other is read by one rule after the other. The second rule has to be
good for as many tokens as the first one leaves. -/
theorem bind [Nonempty E] {value' : D → E → β} {trail' : D → E → List Event}
    (hr : P.ReadBy n r value trail)
    (hf : ∀ d, Q.ReadBy m (f (value d)) (value' d) (trail' d))
    (hm : ∀ d, n ≤ m + (P.tokens d).length) (hseam : P.Before Q) :
    (P.seq Q).ReadBy n (r >>= f) (fun x ↦ value' x.1 x.2)
      fun x ↦ trail x.1 ++ trail' x.1 x.2 where
  complete := by
    rintro ⟨d, e⟩ s hs hlength hstops
    simp only [seq, List.length_append] at hlength ⊢
    have hmd := hm d
    have hr' := hr.complete d (s.push (Q.tokens e)) (ordered_push hs e) (by omega)
      (hseam.stops hstops)
    have hf' := (hf d).complete e s hs (by omega) hstops.1
    rw [Stream.push_append, bind_of_ok f (congrArg Outcome.result hr'), hr', hf']
  unique := by
    rintro ⟨d, e⟩ ⟨d', e'⟩ s hs hlength hstops hstops' heq
    simp only [seq] at hlength heq
    have hlength' := hlength
    rw [heq] at hlength'
    rw [List.length_append] at hlength hlength'
    have hpush : (s.push (Q.tokens e)).push (P.tokens d) =
        (s.push (Q.tokens e')).push (P.tokens d') := by
      rw [← Stream.push_append, ← Stream.push_append, heq]
    have hrest : Q.tokens e = Q.tokens e' :=
      List.append_cancel_right (congrArg Stream.ahead (hr.rest_unique (ordered_push hs e)
        (ordered_push hs e') (by omega) (by omega) (hseam.stops hstops) (hseam.stops hstops')
        hpush))
    have hfirst : P.tokens d = P.tokens d' := by
      rw [hrest] at heq
      exact List.append_cancel_right heq
    obtain rfl : d = d' := hr.unique d d' (s.push (Q.tokens e)) (ordered_push hs e) (by omega)
      (hseam.stops hstops) (by rw [hrest]; exact hseam.stops hstops') hfirst
    have hmd := hm d
    obtain rfl : e = e' := (hf d).unique e e' s hs (by omega) hstops.1 hstops'.1 hrest
    rfl
  outcome s hs hlength := by
    rcases hr.outcome s hs hlength with ⟨d, rest, hd⟩ | ⟨w, rest, err, hw, herr, hat, hblame⟩
    · obtain ⟨hrest, hsum, hr'⟩ := hr.eq_of_begins hs hlength hd
      have hmd := hm d
      rcases (hf d).outcome rest hrest (by omega) with
        ⟨e, rest', he⟩ | ⟨w, rest', err, hw, herr, hat, hblame⟩
      · refine .inl ⟨(d, e), rest', ?_, he.2, fun hnil ↦ ?_⟩
        · rw [hd.1, he.1]
          exact (Stream.push_append _ _ _).symm
        · have hstops := hd.2
          rwa [he.1, hnil, Stream.push_nil] at hstops
      · refine .inr ⟨P.tokens d ++ w, rest', err, ?_, ?_, hat, ?_⟩
        · rw [hd.1, hw, Stream.push_append]
        · rw [bind_of_ok f (congrArg Outcome.result hr'), hr']
          exact herr
        · exact hr.blame_seq hm hseam (by omega) (hw ▸ hd.2) hblame
    · exact .inr ⟨w, rest, err, hw, herr.bind f, hat, blame_first hseam hblame⟩
  quiet s hs hlength x hx := by
    rcases hr.outcome s hs hlength with ⟨d, rest, hd⟩ | ⟨w, rest, err, hw, herr, hat, hblame⟩
    · obtain ⟨hrest, hsum, hr'⟩ := hr.eq_of_begins hs hlength hd
      have hmd := hm d
      rw [bind_of_ok f (congrArg Outcome.result hr')] at hx
      rcases List.mem_append.1 hx with hx | hx
      · exact hr.quiet s hs hlength x hx
      · rw [hr'] at hx
        exact (hf d).quiet rest hrest (by omega) x hx
    · rw [bind_of_error f herr.1] at hx
      exact hr.quiet s hs hlength x hx

theorem both [Nonempty E] {q : Rule β} {value' : E → β} {trail' : E → List Event}
    (hr : P.ReadBy n r value trail) (hq : Q.ReadBy m q value' trail')
    (hm : ∀ d, n ≤ m + (P.tokens d).length) (hseam : P.Before Q) :
    (P.seq Q).ReadBy n (r.both q) (fun x ↦ (value x.1, value' x.2))
      fun x ↦ trail x.1 ++ trail' x.2 :=
  hr.bind (f := fun a ↦ q >>= fun b ↦ pure (a, b)) (fun d ↦ hq.map (value d, ·)) hm hseam

end ReadBy

/-! ### Choice by the first token -/

/-- No token at all. -/
def empty : Phrase Unit where
  tokens _ := []
  ordered _ _ h := absurd h List.not_mem_nil
  stops _ _ := True

theorem readBy_pure (a : α) (n : Nat) :
    empty.ReadBy n (pure a : Rule α) (fun _ ↦ a) fun _ ↦ [] where
  complete _ _ _ _ _ := rfl
  unique _ _ _ _ _ _ _ _ := rfl
  outcome s _ _ := .inl ⟨(), s, rfl, trivial⟩
  quiet _ _ _ _ hx := absurd hx List.not_mem_nil

/-- What a rule does on streams that start with a token of the kind `k`: it reads some derivations,
which are all that can start like this, or there are none and it fails. -/
inductive Branch (P : Phrase D) (n : Nat) (r : Rule α) (value : D → α) (trail : D → List Event)
    (k : Kind) : Prop where
  | form {E : Type} (Q : Phrase E) (g : E → D) (r' : Rule α)
      (reads : Q.ReadBy n r' (fun e ↦ value (g e)) fun e ↦ trail (g e))
      (rule_eq : ∀ s : Stream, s.Ordered → s.peek.kind = k → r s = r' s)
      (tokens_eq : ∀ e, P.tokens (g e) = Q.tokens e)
      (stops_of : ∀ e kind, P.stops (g e) kind → Q.stops e kind)
      (stops_to : ∀ (e : E) (s : Stream), (s.push (Q.tokens e)).peek.kind = k →
        Q.stops e s.peek.kind → P.stops (g e) s.peek.kind)
      (covers : ∀ (d : D) (s : Stream), P.stops d s.peek.kind →
        (s.push (P.tokens d)).peek.kind = k → ∃ e, g e = d)
  | dead (wanted : Expectation) (not_token : ∀ c, wanted ≠ .token c)
      (rule_eq : ∀ s : Stream, s.Ordered → s.peek.kind = k → r s = fail wanted s)
      (no_derivation : ∀ (d : D) (s : Stream), P.stops d s.peek.kind →
        (s.push (P.tokens d)).peek.kind ≠ k)

/-- Whatever goes on as a stream did up to its next token starts as that stream did. -/
theorem peek_eq_of_isPrefix {w ts : List Token} {s s' : Stream}
    (h : w ++ [s.peek] <+: ts ++ s'.all) : (s'.push ts).peek = (s.push w).peek := by
  obtain ⟨more, hmore⟩ := h
  have h₁ := s.head?_append_peek w more
  rw [hmore, ← Stream.all_push, Stream.head?_all] at h₁
  exact Option.some.inj h₁

/-- A rule that is right for every kind of first token reads the phrase. -/
theorem ReadBy.of_branches [hne : Nonempty D] {P : Phrase D} {n : Nat} {r : Rule α}
    {value : D → α} {trail : D → List Event} (h : ∀ k, P.Branch n r value trail k) :
    P.ReadBy n r value trail where
  complete d s hs hlength hstops := by
    cases h (s.push (P.tokens d)).peek.kind with
    | form Q g r' reads rule_eq tokens_eq stops_of stops_to covers =>
      obtain ⟨e, rfl⟩ := covers d s hstops rfl
      rw [rule_eq _ (ordered_push hs _) rfl]
      rw [tokens_eq] at hlength ⊢
      exact reads.complete e s hs hlength (stops_of e _ hstops)
    | dead wanted _ _ no_derivation => exact absurd rfl (no_derivation d s hstops)
  unique d d' s hs hlength hstops hstops' heq := by
    cases h (s.push (P.tokens d)).peek.kind with
    | form Q g r' reads rule_eq tokens_eq stops_of stops_to covers =>
      obtain ⟨e, rfl⟩ := covers d s hstops rfl
      obtain ⟨e', rfl⟩ := covers d' s hstops' (by rw [heq])
      rw [tokens_eq] at hlength heq
      rw [tokens_eq] at heq
      exact congrArg g
        (reads.unique e e' s hs hlength (stops_of e _ hstops) (stops_of e' _ hstops') heq)
    | dead wanted _ _ no_derivation => exact absurd rfl (no_derivation d s hstops)
  outcome s hs hlength := by
    cases h s.peek.kind with
    | form Q g r' reads rule_eq tokens_eq stops_of stops_to covers =>
      rw [rule_eq s hs rfl]
      rcases reads.outcome s hs hlength with ⟨e, rest, he⟩ | ⟨w, rest, err, hw, herr, hat, hblame⟩
      · refine .inl ⟨g e, rest, ?_, ?_⟩
        · rw [tokens_eq, he.1]
        · exact stops_to e rest (by rw [he.1]) he.2
      · refine .inr ⟨w, rest, err, hw, herr, hat, ?_, ?_, ?_⟩
        · obtain ⟨e, he⟩ := hblame.viable
          exact ⟨g e, by rwa [tokens_eq]⟩
        · intro c hc
          obtain ⟨u, hu, e, he⟩ := hblame.viable_wanted c hc
          exact ⟨u, hu, g e, by rwa [tokens_eq]⟩
        · intro d s' hs' hlength' hstops hprefix
          obtain ⟨e, rfl⟩ := covers d s' hstops (by rw [peek_eq_of_isPrefix hprefix, hw])
          rw [tokens_eq] at hlength' hprefix
          exact hblame.excluded e s' hs' hlength' (stops_of e _ hstops) hprefix
    | dead wanted not_token rule_eq no_derivation =>
      obtain ⟨err, hat, hwanted, hfail⟩ := fail_apply (α := α) wanted hs
      have hfails : (r s).FailsAt err s := by
        rw [rule_eq s hs rfl, hfail]
        exact ⟨rfl, rfl⟩
      refine .inr ⟨[], s, err, rfl, hfails, hat, ?_, ?_, ?_⟩
      · obtain ⟨d⟩ := hne
        exact ⟨d, List.nil_prefix⟩
      · intro c hc
        exact absurd (hwanted ▸ hc) (not_token c)
      · intro d s' _ _ hstops hprefix
        exact no_derivation d s' hstops (by rw [peek_eq_of_isPrefix hprefix, Stream.push_nil])
  quiet s hs hlength x hx := by
    cases h s.peek.kind with
    | form Q g r' reads rule_eq tokens_eq stops_of stops_to covers =>
      rw [rule_eq s hs rfl] at hx
      exact reads.quiet s hs hlength x hx
    | dead wanted _ rule_eq _ =>
      obtain ⟨err, -, -, hfail⟩ := fail_apply (α := α) wanted hs
      rw [rule_eq s hs rfl, hfail] at hx
      cases hx

/-! ### Repetition -/

/-- The phrase may be repeated: it takes at least a token, starts with a token that `starts` has an
answer for, and stops where it starts again. -/
structure Repeats (P : Phrase D) (starts : Kind → Option β) : Prop where
  /-- The phrase takes a token. -/
  tokens_ne_nil : ∀ d, P.tokens d ≠ []
  /-- The phrase starts where it may. -/
  starts_peek : ∀ (d : D) (s : Stream), ∃ b, starts (s.push (P.tokens d)).peek.kind = some b
  /-- The phrase may stand behind itself. -/
  seam : ∀ (d d' : D) (s : Stream), P.stops d (s.push (P.tokens d')).peek.kind
  /-- The phrase does not start at the end of input. -/
  starts_end : starts .endOfInput = none

section Many

variable {P : Phrase D} {starts : Kind → Option β} {item : β → Rule α} {r : Rule α}
  {value : D → α} {trail : D → List Event} {n : Nat}

theorem Repeats.before_star (hP : P.Repeats starts) : P.Before (P.star starts) := by
  intro d ds s hds
  cases ds with
  | nil => exact absurd rfl hds
  | cons e ds =>
    change P.stops d (s.push (P.tokens e ++ ds.flatMap P.tokens)).peek.kind
    rw [Stream.push_append]
    exact hP.seam d e _

theorem star_stops_cons {d : D} {ds : List D} {kind : Kind} (hP : P.Repeats starts) :
    (P.star starts).stops (d :: ds) kind ↔ (P.seq (P.star starts)).stops (d, ds) kind := by
  cases ds with
  | nil => simp [star, seq]
  | cons e ds =>
    have hne : P.tokens e ≠ [] := hP.tokens_ne_nil e
    simp [star, seq, hne]

theorem Repeats.flatMap_eq_nil (hP : P.Repeats starts) {ds : List D}
    (h : (ds.flatMap P.tokens).length < 1) : ds = [] := by
  cases ds with
  | nil => rfl
  | cons d ds =>
    have hpos := List.length_pos_iff.2 (hP.tokens_ne_nil d)
    rw [List.flatMap_cons, List.length_append] at h
    omega

/-- Nothing starts where no token is left. -/
theorem Repeats.starts_of_length_le (hP : P.Repeats starts) {s : Stream} (h : s.length ≤ 0) :
    starts s.peek.kind = none := by
  have hnil : s.ahead = [] := List.length_eq_zero_iff.1 (Nat.le_zero.1 h)
  have hpeek : s.peek = s.close := by
    rw [Stream.peek, hnil]
    rfl
  rw [hpeek]
  exact hP.starts_end

/-- Without a bound left there is nothing left to read. -/
theorem readBy_manyAlong_nil (hP : P.Repeats starts) :
    (P.star starts).ReadBy 1 (manyAlong starts item []) (fun ds ↦ ds.map value)
      fun ds ↦ ds.flatMap trail where
  complete ds s _ hlength _ := by
    obtain rfl := hP.flatMap_eq_nil hlength
    rfl
  unique ds ds' s _ hlength _ _ heq := by
    have hlength' : (ds'.flatMap P.tokens).length < 1 := by
      rw [← show ds.flatMap P.tokens = ds'.flatMap P.tokens from heq]
      exact hlength
    rw [hP.flatMap_eq_nil hlength, hP.flatMap_eq_nil hlength']
  outcome s _ hlength := by
    exact .inl ⟨[], s, rfl, hP.starts_of_length_le (by omega), fun d hd ↦ by cases hd⟩
  quiet _ _ _ _ hx := absurd hx List.not_mem_nil

/-- Repetition with a bound: nothing, or the phrase once and then repetition with a smaller
bound. -/
theorem ReadBy.manyAlong (h : P.ReadBy n r value trail) (hP : P.Repeats starts)
    (hitem : ∀ (s : Stream) (b : β), s.Ordered → starts s.peek.kind = some b → item b s = r s)
    (bound : List Token) :
    (P.star starts).ReadBy (min n (bound.length + 1)) (manyAlong starts item bound)
      (fun ds ↦ ds.map value) fun ds ↦ ds.flatMap trail := by
  induction bound with
  | nil => exact (readBy_manyAlong_nil hP).mono (Nat.min_le_right _ _)
  | cons t bound ih =>
    have : Nonempty (List D) := ⟨[]⟩
    refine of_branches fun k ↦ ?_
    cases hk : starts k with
    | none =>
      refine .form empty (fun _ ↦ []) (pure []) (readBy_pure [] _) ?_ (fun _ ↦ rfl)
        (fun _ _ _ ↦ trivial) ?_ ?_
      · rintro s - rfl
        rw [Rule.manyAlong, peek_bind, hk]
      · intro _ s hpeek _
        exact ⟨by rwa [← hpeek] at hk, fun d hd ↦ by cases hd⟩
      · rintro (_ | ⟨d, ds⟩) s - hpeek
        · exact ⟨(), rfl⟩
        · obtain ⟨b, hb⟩ := hP.starts_peek d (s.push (ds.flatMap P.tokens))
          rw [← Stream.push_append] at hb
          change (s.push (P.tokens d ++ ds.flatMap P.tokens)).peek.kind = k at hpeek
          rw [hpeek, hk] at hb
          cases hb
    | some b =>
      have hm (d : D) : min n ((t :: bound).length + 1) ≤
          min n (bound.length + 1) + (P.tokens d).length := by
        have hpos := List.length_pos_iff.2 (hP.tokens_ne_nil d)
        rw [List.length_cons]
        omega
      have hcons := ((h.mono (Nat.min_le_left n _)).both ih hm hP.before_star).map
        fun x ↦ x.1 :: x.2
      refine .form _ (fun x ↦ x.1 :: x.2) _ hcons ?_ (fun _ ↦ rfl)
        (fun _ _ hstops ↦ (star_stops_cons hP).1 hstops)
        (fun _ _ _ hstops ↦ (star_stops_cons hP).2 hstops) ?_
      · rintro s hs rfl
        rw [Rule.manyAlong, peek_bind, hk, both_bind]
        exact bind_congr _ (hitem s b hs hk)
      · rintro (_ | ⟨d, ds⟩) s hstops hpeek
        · have hnone := hstops.1
          change s.peek.kind = k at hpeek
          rw [hpeek, hk] at hnone
          cases hnone
        · exact ⟨(d, ds), rfl⟩

theorem manyAlong_of_none {s : Stream} (h : starts s.peek.kind = none) (bound : List Token) :
    Rule.manyAlong starts item bound s = (pure [] : Rule (List α)) s := by
  cases bound with
  | nil => rfl
  | cons t bound => rw [Rule.manyAlong, peek_bind, h]

/-- A bound that is not smaller than the number of tokens does not matter. -/
theorem ReadBy.manyAlong_eq (h : P.ReadBy n r value trail) (hP : P.Repeats starts)
    (hitem : ∀ (s : Stream) (b : β), s.Ordered → starts s.peek.kind = some b → item b s = r s)
    {b c : List Token} {s : Stream} (hs : s.Ordered) (hlength : s.length < n)
    (hb : s.length ≤ b.length) (hc : s.length ≤ c.length) :
    Rule.manyAlong starts item b s = Rule.manyAlong starts item c s := by
  induction b generalizing c s with
  | nil =>
    have hnone := hP.starts_of_length_le hb
    rw [manyAlong_of_none hnone, manyAlong_of_none hnone]
  | cons t b ih =>
    cases hstart : starts s.peek.kind with
    | none => rw [manyAlong_of_none hstart, manyAlong_of_none hstart]
    | some x =>
      cases c with
      | nil =>
        rw [hP.starts_of_length_le hc] at hstart
        cases hstart
      | cons u c =>
        have hitem' := hitem s x hs hstart
        rw [Rule.manyAlong, peek_bind, hstart, Rule.manyAlong, peek_bind, hstart]
        dsimp only
        rcases h.outcome s hs hlength with ⟨d, rest, hd⟩ | ⟨w, rest, e, hw, herr, -, -⟩
        · obtain ⟨hrest, hsum, hr⟩ := h.eq_of_begins hs hlength hd
          have hpos := List.length_pos_iff.2 (hP.tokens_ne_nil d)
          rw [List.length_cons] at hb hc
          have hagree : Rule.manyAlong starts item b rest = Rule.manyAlong starts item c rest :=
            ih hrest (by omega) (by omega) (by omega)
          have hresult : (item x s).result = .ok (value d) := by rw [hitem', hr]
          have hrest' : (item x s).rest = rest := by rw [hitem', hr]
          rw [bind_of_ok _ hresult, bind_of_ok _ hresult, hrest', bind_congr _ hagree]
        · have hresult : (item x s).result = .error (.syntactic e) := by rw [hitem', herr.1]
          rw [bind_of_error _ hresult, bind_of_error _ hresult]

/-- Repetition of a phrase is read by repetition of its rule. -/
theorem ReadBy.many (h : P.ReadBy n r value trail) (hP : P.Repeats starts) (item : β → Rule α)
    (hitem : ∀ (s : Stream) (b : β), s.Ordered → starts s.peek.kind = some b → item b s = r s) :
    (P.star starts).ReadBy n (many starts item) (fun ds ↦ ds.map value)
      fun ds ↦ ds.flatMap trail := by
  have hlong := h.manyAlong hP hitem (List.replicate n (Token.endAt {}))
  rw [List.length_replicate, Nat.min_eq_left (Nat.le_succ n)] at hlong
  have heq (s : Stream) (hs : s.Ordered) (hlength : s.length < n) : Rule.many starts item s =
      Rule.manyAlong starts item (List.replicate n (Token.endAt {})) s :=
    h.manyAlong_eq hP hitem hs hlength (Nat.le_refl _) (by rw [List.length_replicate]; omega)
  refine ⟨?_, hlong.unique, ?_, ?_⟩
  · intro ds s hs hlength hstops
    refine (h.manyAlong hP hitem (s.push (ds.flatMap P.tokens)).ahead).complete ds s hs ?_ hstops
    change (ds.flatMap P.tokens).length < n at hlength
    change (ds.flatMap P.tokens).length < min n ((s.push (ds.flatMap P.tokens)).length + 1)
    rw [Stream.length_push]
    omega
  · intro s hs hlength
    rw [heq s hs hlength]
    exact hlong.outcome s hs hlength
  · intro s hs hlength
    rw [heq s hs hlength]
    exact hlong.quiet s hs hlength

end Many

end Phrase

end Pseudocode
